import Reckoner.Proofs.Parser.Run

/-!
What a successful step of the parser does.

`Step` has one constructor for every way in which a token can be taken in, with everything that the
parser has checked by then and the state that it leaves. What holds of all runs is proved from it by
one case distinction and by `run_invariant`, without opening the parser again.
-/
namespace Reckoner

namespace TokenKind

/-- The token is an operand by itself. -/
def isOperand : TokenKind → Bool
  | int _ | double _ | tree _ | ident _ => true
  | _ => false

/-- The token is an operator. -/
def isOperator : TokenKind → Bool
  | plus | minus | negate | asterisk | slash | circumflex | equals => true
  | _ => false

end TokenKind

namespace Parser

variable {v : Vocabulary} {n n' : Names}

/-! ## Reduction -/

/-- The tree that the token `t` stands for as an operand, with the names before and after. -/
inductive Stands (v : Vocabulary) (t : Token) (n : Names) : Expr → Names → Prop
  | int {k : BitVec 64} (ht : t.kind = .int k) : Stands v t n (.literal (.int k)) n
  | double {x : Float} (ht : t.kind = .double x) : Stands v t n (.literal (.double x)) n
  | tree {e : Expr} (ht : t.kind = .tree e) : Stands v t n e n
  | constant {name : String} {c : Constant} (ht : t.kind = .ident name)
      (hconstant : v.constant? name = some c) : Stands v t n (.constant c.name c.value) n
  | var {name : String} (ht : t.kind = .ident name) (hconstant : v.constant? name = none) :
      Stands v t n (.var name (n.idOf name).1) (n.idOf name).2

theorem stands_of_yields {t : Token} {e : Expr} (h : Yields (operand v t) n e n') :
    Stands v t n e n' := by
  unfold operand at h
  split at h
  · next ht =>
      obtain ⟨rfl, rfl⟩ := yields_pure.1 h
      exact .int ht
  · next ht =>
      obtain ⟨rfl, rfl⟩ := yields_pure.1 h
      exact .double ht
  · next ht =>
      obtain ⟨rfl, rfl⟩ := yields_pure.1 h
      exact .tree ht
  · next ht =>
      split at h
      · next hconstant =>
          obtain ⟨rfl, rfl⟩ := yields_pure.1 h
          exact .constant ht hconstant
      · next hconstant =>
          cases h
          exact .var ht hconstant
  · exact absurd h not_yields_throw

theorem Yields.extends_operand {t : Token} {e : Expr} (h : Yields (operand v t) n e n') :
    n.Extends n' := by
  cases stands_of_yields h with
  | var _ _ => exact n.extends_idOf _
  | _ => exact .refl n

/-- A token in postfix order puts an operand onto the stack or is an operator that is applied. -/
theorem yields_reduceToken {stack stack' : List Expr} {t : Token}
    (h : Yields (reduceToken v stack t) n stack' n') :
    (operator? v t = none ∧ ∃ e, Yields (operand v t) n e n' ∧ stack' = e :: stack) ∨
      ∃ id f, operator? v t = some (id, f) ∧ apply f id t stack = .ok stack' ∧ n = n' := by
  unfold reduceToken at h
  split at h
  · next id f hoperator =>
      split at h
      · next stack₁ happly =>
          obtain ⟨rfl, rfl⟩ := yields_pure.1 h
          exact .inr ⟨id, f, hoperator, happly, rfl⟩
      · exact absurd h not_yields_throw
  · next hoperator =>
      obtain ⟨e, n₁, hoperand, hpush⟩ := yields_bind.1 h
      obtain ⟨rfl, rfl⟩ := yields_pure.1 hpush
      exact .inl ⟨hoperator, e, hoperand, rfl⟩

/-- A level is reduced to the one tree that its tokens leave on the stack. -/
theorem yields_reduce {start : Nat} {output : List Token} {e : Expr}
    (h : Yields (reduce v start output) n e n') :
    output ≠ [] ∧ Yields (output.foldlM (reduceToken v) []) n [e] n' := by
  cases output with
  | nil => exact absurd h not_yields_throw
  | cons t rest =>
      obtain ⟨stack, n₁, hfold, hlast⟩ := yields_bind.1 h
      refine ⟨by simp, ?_⟩
      split at hlast
      · obtain ⟨rfl, rfl⟩ := yields_pure.1 hlast
        exact hfold
      · exact absurd hlast not_yields_throw

theorem yields_foldlM_cons {α β : Type} {f : β → α → Parsing β} {a : α} {rest : List α} {b b' : β} :
    Yields ((a :: rest).foldlM f b) n b' n' ↔
      ∃ b₁ n₁, Yields (f b a) n b₁ n₁ ∧ Yields (rest.foldlM f b₁) n₁ b' n' := by
  rw [List.foldlM_cons]
  exact yields_bind

/-- Reduction only adds names. -/
theorem Yields.extends_foldlM {tokens : List Token} {stack stack' : List Expr}
    (h : Yields (tokens.foldlM (reduceToken v) stack) n stack' n') : n.Extends n' := by
  induction tokens generalizing stack n with
  | nil =>
      obtain ⟨-, rfl⟩ := yields_pure.1 h
      exact .refl n
  | cons t rest ih =>
      obtain ⟨stack₁, n₁, htoken, hrest⟩ := yields_foldlM_cons.1 h
      have hfirst : n.Extends n₁ := by
        rcases yields_reduceToken htoken with ⟨-, e, hoperand, -⟩ | ⟨id, f, -, -, rfl⟩
        · exact hoperand.extends_operand
        · exact .refl n
      exact hfirst.trans (ih hrest)

theorem Yields.extends_reduce {start : Nat} {output : List Token} {e : Expr}
    (h : Yields (reduce v start output) n e n') : n.Extends n' :=
  (yields_reduce h).2.extends_foldlM

/-- What a finished call has been checked for. -/
theorem reduceCall_eq_ok {l : Level} {e : Expr} (h : reduceCall v l = .ok e) :
    ∃ name id f args, l.pending.getLast? = some name ∧
      v.functions.findRegular? name.text = some id ∧ v.functions.get? id = some f ∧
      argumentsOf l.output = .ok args ∧ f.arity.accepts args.length = true ∧
      build f id args = .ok e := by
  unfold reduceCall at h
  split at h
  · cases h
  · next name hname =>
      simp only at h
      split at h
      · cases h
      · next id f hfound =>
          obtain ⟨id', hfind, hget⟩ := Option.bind_eq_some_iff.1 hfound
          obtain ⟨f', hget, hpair⟩ := Option.map_eq_some_iff.1 hget
          cases hpair
          split at h
          · cases h
          · next args hargs =>
              split at h
              · next hcount => exact ⟨name, id, f, args, hname, hfind, hget, hargs, hcount, h⟩
              · cases h

/-- The last argument of a call is read as a tree, or there is none. -/
theorem yields_reduceInner {inCall : Bool} {l : Level} {inner : List Token}
    (h : Yields (reduceInner v inCall l) n inner n') :
    (inCall = true ∧ l.finished = [] ∧ inner = [] ∧ n = n') ∨
      ∃ e, Yields (reduce v l.start l.finished) n e n' ∧ inner = [.ofExpr e l.start] := by
  unfold reduceInner at h
  split at h
  · next hempty =>
      obtain ⟨rfl, rfl⟩ := yields_pure.1 h
      have hboth : l.finished = [] ∧ inCall = true := by simpa using hempty
      exact .inl ⟨hboth.2, hboth.1, rfl, rfl⟩
  · obtain ⟨e, n₁, hreduce, hlast⟩ := yields_bind.1 h
    obtain ⟨rfl, rfl⟩ := yields_pure.1 hlast
    exact .inr ⟨e, hreduce, rfl⟩

/-! ## Steps -/

/-- The token `t` before `next` takes the parser from the first state and names to the second. -/
inductive Step (v : Vocabulary) (t : Token) (next : Option Token) :
    State → Names → State → Names → Prop
  | openParenthesis {s : State} {n : Names} (ht : t.kind = .lparen) (hs : s.callee = none) :
      Step v t next s n
        { current := { start := t.position }, outer := s.current :: s.outer } n
  | openCall {s : State} {n : Names} {f : Token} (ht : t.kind = .lparen) (hs : s.callee = some f) :
      Step v t next s n
        { current := { start := t.position }
          outer := { isCall := true, start := t.position, pending := [f] } ::
            s.current :: s.outer } n
  | comma {s : State} {n n' : Names} {call : Level} {outer : List Level} {e : Expr}
      (ht : t.kind = .comma) (hs : s.callee = none) (houter : s.outer = call :: outer)
      (hcall : call.isCall = true)
      (hreduce : Yields (reduce v s.current.start s.current.finished) n e n') :
      Step v t next s n
        { current := { start := t.position }
          outer := call.push (.ofExpr e s.current.start) :: outer } n'
  | closeParenthesis {s : State} {n n' : Names} {base : Level} {outer : List Level} {e : Expr}
      (ht : t.kind = .rparen) (hs : s.callee = none) (houter : s.outer = base :: outer)
      (hbase : base.isCall = false)
      (hreduce : Yields (reduce v s.current.start s.current.finished) n e n') :
      Step v t next s n
        { current := base.push (.ofExpr e s.current.start), outer } n'
  | closeCall {s : State} {n n' : Names} {call base : Level} {outer : List Level}
      {inner : List Token} {e : Expr}
      (ht : t.kind = .rparen) (hs : s.callee = none) (houter : s.outer = call :: base :: outer)
      (hcall : call.isCall = true)
      (hinner : Yields (reduceInner v true s.current) n inner n')
      (hreduce : reduceCall v { call with output := call.output ++ inner } = .ok e) :
      Step v t next s n { current := base.push (.ofExpr e call.start), outer } n'
  | callee {s : State} {n : Names} (ht : opensCall t next = true) (hs : s.callee = none)
      (hfind : (v.functions.findRegular? t.text).isSome = true) :
      Step v t next s n { s with callee := some t } n
  | operand {s : State} {n : Names} (ht : t.kind.isOperand = true) (hs : s.callee = none)
      (hcall : opensCall t next = false) (hjoin : (t.isNumber && opensOperand next) = false) :
      Step v t next s n (s.push t) n
  | factor {s : State} {n : Names} {id : FunctionId} {f : NamedFunction}
      (ht : t.isNumber = true) (hs : s.callee = none) (hnext : opensOperand next = true)
      (hoperator : operator? v (impliedTimes t.position) = some (id, f)) :
      Step v t next s n
        { s with current :=
            (s.current.push t).pushOperator v (impliedTimes t.position) f.precedence } n
  | operator {s : State} {n : Names} {id : FunctionId} {f : NamedFunction}
      (ht : t.kind.isOperator = true) (hs : s.callee = none)
      (hoperator : operator? v t = some (id, f)) :
      Step v t next s n { s with current := s.current.pushOperator v t f.precedence } n

/-- A number is an operand and calls nothing. -/
theorem isOperand_of_isNumber {t : Token} (h : t.isNumber = true) (next : Option Token) :
    t.kind.isOperand = true ∧ opensCall t next = false := by
  cases hk : t.kind <;>
    simp_all [Token.isNumber, TokenKind.isNumber, TokenKind.isOperand, opensCall, TokenKind.isIdent]

theorem yields_operator_cases {s s' : State} {t : Token} (h : Yields (s.operator v t) n s' n') :
    ∃ id f, operator? v t = some (id, f) ∧
      s' = { s with current := s.current.pushOperator v t f.precedence } ∧ n = n' := by
  unfold State.operator at h
  split at h
  · next id f hoperator =>
      obtain ⟨rfl, rfl⟩ := yields_pure.1 h
      exact ⟨id, f, hoperator, rfl, rfl⟩
  · exact absurd h not_yields_throw

theorem step_openLevel {s : State} {t : Token} {next : Option Token} (ht : t.kind = .lparen) :
    Step v t next s n (s.openLevel t.position) n := by
  cases hs : s.callee with
  | none =>
      have hopen : s.openLevel t.position =
          { current := { start := t.position }, outer := s.current :: s.outer } := by
        simp [State.openLevel, hs]
      rw [hopen]
      exact .openParenthesis ht hs
  | some f =>
      have hopen : s.openLevel t.position =
          { current := { start := t.position }
            outer := { isCall := true, start := t.position, pending := [f] } ::
              s.current :: s.outer } := by
        simp [State.openLevel, hs]
      rw [hopen]
      exact .openCall ht hs

theorem step_nextArgument {s s' : State} {t : Token} {next : Option Token} (ht : t.kind = .comma)
    (hs : s.callee = none) (h : Yields (s.nextArgument v t.position) n s' n') :
    Step v t next s n s' n' := by
  unfold State.nextArgument at h
  split at h
  · next call outer houter =>
      split at h
      · next hcall =>
          obtain ⟨e, n₁, hreduce, hlast⟩ := yields_bind.1 h
          obtain ⟨rfl, rfl⟩ := yields_pure.1 hlast
          rw [hs]
          exact .comma ht hs houter hcall hreduce
      · exact absurd h not_yields_throw
  · exact absurd h not_yields_throw

theorem step_close {s s' : State} {t : Token} {next : Option Token} (ht : t.kind = .rparen)
    (hs : s.callee = none) (h : Yields (s.close v t.position) n s' n') :
    Step v t next s n s' n' := by
  unfold State.close at h
  split at h
  · exact absurd h not_yields_throw
  · next enclosing outer houter =>
      obtain ⟨inner, n₁, hinner, hlast⟩ := yields_bind.1 h
      cases hcall : enclosing.isCall with
      | true =>
          simp only [hcall, if_true] at hlast hinner
          split at hlast
          · exact absurd hlast not_yields_throw
          · next e hreduce =>
              split at hlast
              · exact absurd hlast not_yields_throw
              · next base outer =>
                  obtain ⟨rfl, rfl⟩ := yields_pure.1 hlast
                  rw [hs]
                  rw [← hcall] at hreduce
                  exact .closeCall ht hs houter hcall hinner hreduce
      | false =>
          simp only [hcall] at hlast hinner
          obtain ⟨hfalse, -⟩ | ⟨e, hreduce, rfl⟩ := yields_reduceInner hinner
          · cases hfalse
          · obtain ⟨rfl, rfl⟩ := yields_pure.1 hlast
            rw [hs]
            have hstep : Step v t next s n _ n₁ := .closeParenthesis ht hs houter hcall hreduce
            simpa [Level.push, ← hcall] using hstep

/-- Every successful step is one of those that `Step` lists. -/
theorem step_of_yields {s s' : State} {t : Token} {next : Option Token}
    (h : Yields (step v s t next) n s' n') : Step v t next s n s' n' := by
  have hname : ∀ {name : String}, t.kind = .ident name →
      opensCall t next = next.any (·.kind.isOpen) := by
    intro name hk
    simp [opensCall, hk, TokenKind.isIdent]
  unfold step at h
  split at h
  · next hk =>
      obtain ⟨rfl, rfl⟩ := yields_pure.1 h
      exact step_openLevel hk
  · exact absurd h not_yields_throw
  · next hk hs => exact step_nextArgument hk hs h
  · next hk hs => exact step_close hk hs h
  · next name hk hs =>
      split at h
      · next hopen =>
          split at h
          · next hfind =>
              obtain ⟨rfl, rfl⟩ := yields_pure.1 h
              exact .callee (by rw [hname hk, hopen]) hs hfind
          · exact absurd h not_yields_throw
      · next hopen =>
          obtain ⟨rfl, rfl⟩ := yields_pure.1 h
          refine .operand (by rw [hk]; rfl) hs ?_ ?_
          · rw [hname hk]
            simpa using hopen
          · simp [Token.isNumber, hk, TokenKind.isNumber]
  · next k hk hs =>
      split at h
      · next hnext =>
          obtain ⟨id, f, hoperator, rfl, rfl⟩ := yields_operator_cases h
          exact .factor (by simp [Token.isNumber, hk, TokenKind.isNumber]) hs hnext hoperator
      · next hnext =>
          obtain ⟨rfl, rfl⟩ := yields_pure.1 h
          refine .operand (by rw [hk]; rfl) hs ?_ ?_
          · simp [opensCall, hk, TokenKind.isIdent]
          · simpa [Token.isNumber, hk, TokenKind.isNumber] using hnext
  · next x hk hs =>
      split at h
      · next hnext =>
          obtain ⟨id, f, hoperator, rfl, rfl⟩ := yields_operator_cases h
          exact .factor (by simp [Token.isNumber, hk, TokenKind.isNumber]) hs hnext hoperator
      · next hnext =>
          obtain ⟨rfl, rfl⟩ := yields_pure.1 h
          refine .operand (by rw [hk]; rfl) hs ?_ ?_
          · simp [opensCall, hk, TokenKind.isIdent]
          · simpa [Token.isNumber, hk, TokenKind.isNumber] using hnext
  · next e hk hs =>
      obtain ⟨rfl, rfl⟩ := yields_pure.1 h
      refine .operand (by rw [hk]; rfl) hs ?_ ?_
      · simp [opensCall, hk, TokenKind.isIdent]
      · simp [Token.isNumber, hk, TokenKind.isNumber]
  · next hs _ _ _ _ _ _ _ =>
      obtain ⟨id, f, hoperator, rfl, rfl⟩ := yields_operator_cases h
      refine .operator ?_ hs hoperator
      cases hk : t.kind <;> simp_all [TokenKind.isOperator]

/-! ## The tokens of a level -/

theorem Level.perm_push (l : Level) (t : Token) : (l.push t).finished.Perm (t :: l.finished) := by
  simp only [finished, push, List.append_assoc, List.singleton_append]
  exact List.perm_middle

/-- An operator reorders the tokens of its level and loses none. -/
theorem Level.perm_pushOperator (l : Level) (t : Token) (precedence : Int) :
    (l.pushOperator v t precedence).finished.Perm (t :: l.finished) := by
  have hpending : l.pending.takeWhile (precedes v precedence) ++
      l.pending.dropWhile (precedes v precedence) = l.pending := List.takeWhile_append_dropWhile
  have hmiddle : (l.pushOperator v t precedence).finished.Perm
      (t :: ((l.output ++ l.pending.takeWhile (precedes v precedence)) ++
        l.pending.dropWhile (precedes v precedence))) := List.perm_middle
  rw [List.append_assoc, hpending] at hmiddle
  exact hmiddle

/-- A level gets one more token with a property that all its tokens have, wherever it is put. -/
theorem Level.forall_mem_of_perm {P : Token → Prop} {l l' : Level} {t : Token}
    (hl : ∀ u ∈ l.finished, P u) (hperm : l'.finished.Perm (t :: l.finished)) (ht : P t) :
    ∀ u ∈ l'.finished, P u :=
  fun u hu => List.forall_mem_cons.2 ⟨ht, hl⟩ u (hperm.subset hu)

/-! ## Runs -/

/-- What every step preserves, a run preserves. A step knows the tokens that follow it. -/
theorem run_invariant {I : State → Names → Prop} {tokens : List Token} {s s' : State}
    (hstep : ∀ {t : Token} {rest : List Token} {s s' : State} {n n' : Names},
      t :: rest <:+ tokens → I s n → Step v t rest.head? s n s' n' → I s' n')
    (hs : I s n) (h : Yields (run v s tokens) n s' n') : I s' n' := by
  induction tokens generalizing s n with
  | nil =>
      obtain ⟨rfl, rfl⟩ := yields_pure.1 h
      exact hs
  | cons t rest ih =>
      rw [run_cons] at h
      obtain ⟨s₁, n₁, hfirst, hrest⟩ := yields_bind.1 h
      have hs₁ : I s₁ n₁ := hstep List.suffix_rfl hs (step_of_yields hfirst)
      exact ih (fun hsuffix => hstep (hsuffix.trans (List.suffix_cons t rest))) hs₁ hrest

/-- An accepted list of tokens is read to its end on the outermost level, which is then reduced. -/
theorem parse_eq_ok_cases {tokens : List Token} {e : Expr}
    (h : parse v n tokens = (.ok e, n')) :
    tokens ≠ [] ∧ ∃ (s : State) (n₁ : Names), Yields (run v {} tokens) n s n₁ ∧ s.outer = [] ∧
      Yields (reduce v s.current.start s.current.finished) n₁ e n' := by
  have hyields := parse_eq_ok_iff.1 h
  cases tokens with
  | nil => exact absurd hyields not_yields_throw
  | cons t rest =>
      obtain ⟨s, n₁, hrun, hlast⟩ := yields_bind.1 hyields
      refine ⟨by simp, s, n₁, hrun, ?_⟩
      split at hlast
      · next houter => exact ⟨by simpa using houter, hlast⟩
      · exact absurd hlast not_yields_throw

end Parser

end Reckoner
