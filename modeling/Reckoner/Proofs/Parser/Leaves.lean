import Reckoner.Proofs.Calculator
import Reckoner.Proofs.Parser.Trees

/-!
Operands keep their order, and parentheses are balanced.

The parser moves an operand several times: into the postfix order of its level, onto the stack of the
reduction, into a call that is extended, and as part of a tree into the level around it. The
invariant of the run is that the open levels, read from the outermost one inwards, hold the leaves
of what has been read in the order in which it was written. Which numbers the variables will have is
known only in the end, so the leaves are compared for any names that the present ones may grow into.
-/
namespace Reckoner

namespace Expr

mutual

/-- The literals, variables and constants of a tree from left to right. -/
def leaves : Expr → List Expr
  | literal v => [literal v]
  | var name id => [var name id]
  | constant name v => [constant name v]
  | call _ arguments => leavesAll arguments
  | assign target value => leaves target ++ leaves value

/-- Those of several trees, one tree after the other. -/
def leavesAll : List Expr → List Expr
  | [] => []
  | e :: rest => leaves e ++ leavesAll rest

end

theorem leavesAll_eq_flatMap (es : List Expr) : leavesAll es = es.flatMap leaves := by
  induction es with
  | nil => rfl
  | cons e rest ih => rw [leavesAll, ih, List.flatMap_cons]

theorem leaves_call (id : FunctionId) (args : List Expr) :
    (call id args).leaves = args.flatMap leaves := by
  rw [leaves, leavesAll_eq_flatMap]

theorem leaves_callTree (id : FunctionId) (args : List Expr) :
    (callTree id args).leaves = args.flatMap leaves := by
  unfold callTree
  split
  next target value =>
    split
    · simp [leaves]
    · exact leaves_call id _
  next => exact leaves_call id args

/-- A call that is extended gets its new operand behind the others. -/
theorem leaves_combine (o : BinaryOperator) (left right : Expr) :
    (o.combine left right).leaves = left.leaves ++ right.leaves := by
  have hpair : (call o.place [left, right]).leaves = left.leaves ++ right.leaves := by
    simp [leaves_call]
  unfold BinaryOperator.combine
  split
  · rw [leaves]
  · split
    next f args =>
      split
      · simp [leaves_call]
      · exact hpair
    next => exact hpair

end Expr

/-- A closing parenthesis. -/
def TokenKind.isClose : TokenKind → Bool
  | rparen => true
  | _ => false

namespace Grammar

open Reckoner.Parser

variable {v : Vocabulary} {n n' m : Names}

/-- The leaf that an operand makes where the variables have these numbers. -/
def leaf? (v : Vocabulary) (n : Names) (t : Token) : Option Expr :=
  match t.kind with
  | .int k => some (.literal (.int k))
  | .double x => some (.literal (.double x))
  | .ident name =>
    match v.constant? name with
    | some c => some (.constant c.name c.value)
    | none => (n.find? name).map fun id => .var name id
  | _ => none

/-- The token `t` before `next` by itself, if it is a number or a name that calls nothing. -/
def operandAt (t : Token) (next : Option Token) : List Token :=
  if t.isNumber || t.kind.isIdent && !opensCall t next then [t] else []

/-- The numbers and the names that call nothing, in their order. -/
def operandsOf : List Token → List Token
  | [] => []
  | t :: rest => operandAt t rest.head? ++ operandsOf rest

/-- What a token that stands in a level contributes: its own leaf, or the leaves of a tree that has
been read already. -/
def contribution (v : Vocabulary) (n : Names) (t : Token) : List (Option Expr) :=
  match t.kind with
  | .int _ | .double _ | .ident _ => [leaf? v n t]
  | .tree e => e.leaves.map some
  | _ => []

/-! ## Reduction -/

theorem contribution_of_isOperation {t : Token} (h : IsOperation t) : contribution v n t = [] := by
  rcases h with h | ⟨o, h, -⟩
  · rw [contribution, h]
  · rw [contribution, h]
    cases o <;> rfl

theorem flatMap_contribution_of_isOperation {tokens : List Token}
    (h : ∀ t ∈ tokens, IsOperation t) : tokens.flatMap (contribution v n) = [] := by
  rw [List.flatMap_eq_nil_iff]
  exact fun t ht => contribution_of_isOperation (h t ht)

@[simp] theorem contribution_ofExpr (e : Expr) (start : Nat) :
    contribution v n (.ofExpr e start) = e.leaves.map some :=
  rfl

/-- An operand becomes a tree of the leaves that it contributes. -/
theorem map_leaves_of_operand {t : Token} {e : Expr} (h : Yields (operand v t) n e n')
    (hm : n'.Extends m) : e.leaves.map some = contribution v m t := by
  cases stands_of_yields h with
  | int ht => simp [contribution, leaf?, ht, Expr.leaves]
  | double ht => simp [contribution, leaf?, ht, Expr.leaves]
  | tree ht => simp [contribution, ht]
  | constant ht hconstant => simp [contribution, leaf?, ht, hconstant, Expr.leaves]
  | @var name ht hconstant =>
      have hfind := hm.find?_eq_some (n.find?_idOf name)
      simp [contribution, leaf?, ht, hconstant, hfind, Expr.leaves]

/-- The stack holds the leaves of the tokens before, from its bottom to its top. -/
theorem map_leaves_of_foldlM (hv : v.functions.HasOperators) {tokens : List Token}
    {stack stack' : List Expr} (htokens : ∀ t ∈ tokens, t.kind.isOperand = true ∨ IsOperation t)
    (h : Yields (tokens.foldlM (reduceToken v) stack) n stack' n') (hm : n'.Extends m) :
    (stack'.reverse.flatMap Expr.leaves).map some =
      (stack.reverse.flatMap Expr.leaves).map some ++ tokens.flatMap (contribution v m) := by
  induction tokens generalizing stack n with
  | nil =>
      obtain ⟨rfl, rfl⟩ := yields_pure.1 h
      simp
  | cons t rest ih =>
      obtain ⟨stack₁, n₁, hfirst, hrest⟩ := yields_foldlM_cons.1 h
      have hstack₁ : (stack₁.reverse.flatMap Expr.leaves).map some =
          (stack.reverse.flatMap Expr.leaves).map some ++ contribution v m t := by
        rcases htokens t List.mem_cons_self with ht | ht
        · obtain ⟨e, he, rfl⟩ := yields_reduceToken_operand ht hfirst
          have hleaves := map_leaves_of_operand he (hrest.extends_foldlM.trans hm)
          simp [hleaves]
        · rw [contribution_of_isOperation ht]
          rcases ht with ht | ⟨o, ht⟩
          · obtain ⟨e, rest', rfl, rfl, -⟩ := yields_reduceToken_negate hv ht hfirst
            simp [Expr.leaves_call]
          · obtain ⟨left, right, rest', rfl, rfl, -⟩ := yields_reduceToken_binary hv ht hfirst
            simp [Expr.leaves_combine]
      have hafter : ∀ u ∈ rest, u.kind.isOperand = true ∨ IsOperation u :=
        fun u hu => htokens u (List.mem_cons_of_mem _ hu)
      rw [ih hafter hrest, hstack₁, List.append_assoc, List.flatMap_cons]

theorem map_leaves_of_reduce (hv : v.functions.HasOperators) {tokens : List Token} {start : Nat}
    {e : Expr} (htokens : ∀ t ∈ tokens, t.kind.isOperand = true ∨ IsOperation t)
    (h : Yields (reduce v start tokens) n e n') (hm : n'.Extends m) :
    e.leaves.map some = tokens.flatMap (contribution v m) := by
  simpa using map_leaves_of_foldlM hv htokens (yields_reduce h).2 hm

/-- The arguments of a call have been read already. -/
theorem map_leaves_of_argumentsOf {tokens : List Token} {args : List Expr}
    (h : argumentsOf tokens = .ok args) :
    (args.flatMap Expr.leaves).map some = tokens.flatMap (contribution v m) := by
  induction tokens generalizing args with
  | nil =>
      cases h
      rfl
  | cons t rest ih =>
      cases hk : t.kind with
      | tree e =>
          rw [argumentsOf, hk] at h
          cases hrest : argumentsOf rest with
          | error err =>
              rw [hrest] at h
              cases h
          | ok args' =>
              rw [hrest] at h
              cases h
              rw [List.flatMap_cons, List.map_append, ih hrest, List.flatMap_cons, contribution, hk]
      | _ => simp [argumentsOf, hk] at h

/-! ## The run invariant -/

/-- What the finished part of a level contributes; waiting operators contribute nothing. -/
def Level.contribution (v : Vocabulary) (n : Names) (l : Level) : List (Option Expr) :=
  l.output.flatMap (Grammar.contribution v n)

/-- What all open levels contribute, from the outermost one inwards. -/
def State.contribution (v : Vocabulary) (n : Names) (s : State) : List (Option Expr) :=
  s.outer.reverse.flatMap (Level.contribution v n) ++ Level.contribution v n s.current

/-- A level that is read into has only operators waiting. -/
structure Sorted (l : Level) : Prop where
  isCall : l.isCall = false
  output : ∀ t ∈ l.output, t.kind.isOperand = true ∨ IsOperation t
  pending : ∀ t ∈ l.pending, IsOperation t

/-- The parser has read the operands `seen`, and its levels hold their leaves in this order. -/
structure Holds (v : Vocabulary) (seen : List Token) (n : Names) (s : State) : Prop where
  levels : Nested Sorted (fun l => l.isCall = true) s.current s.outer
  leaves : ∀ m, n.Extends m → State.contribution v m s = seen.map (leaf? v m)

section Level

variable {l : Level} {t : Token}

theorem sorted_empty (start : Nat) : Sorted { start } :=
  ⟨rfl, by simp, by simp⟩

theorem Sorted.finished (h : Sorted l) :
    ∀ t ∈ l.finished, t.kind.isOperand = true ∨ IsOperation t := by
  intro t ht
  rcases List.mem_append.1 ht with ht | ht
  · exact h.output t ht
  · exact .inr (h.pending t ht)

theorem Sorted.contribution_finished (h : Sorted l) :
    l.finished.flatMap (contribution v m) = Level.contribution v m l := by
  rw [Level.finished, List.flatMap_append, flatMap_contribution_of_isOperation h.pending,
    List.append_nil, Level.contribution]

theorem Sorted.push (h : Sorted l) (ht : t.kind.isOperand = true) : Sorted (l.push t) where
  isCall := h.isCall
  output := by
    intro u hu
    rcases List.mem_append.1 hu with hu | hu
    · exact h.output u hu
    · obtain rfl : u = t := by simpa using hu
      exact .inl ht
  pending := h.pending

theorem Sorted.pushOperator (h : Sorted l) (ht : IsOperation t) (precedence : Int) :
    Sorted (l.pushOperator v t precedence) where
  isCall := h.isCall
  output := by
    intro u hu
    rcases List.mem_append.1 hu with hu | hu
    · exact h.output u hu
    · exact .inr (h.pending u ((List.takeWhile_prefix _).subset hu))
  pending := by
    intro u hu
    rcases List.mem_cons.1 hu with rfl | hu
    · exact ht
    · exact h.pending u ((List.dropWhile_suffix _).subset hu)

theorem contribution_push (l : Level) (t : Token) :
    Level.contribution v m (l.push t) = Level.contribution v m l ++ contribution v m t := by
  simp [Level.contribution, Level.push]

/-- Operators that are moved to the finished part contribute nothing there either. -/
theorem Sorted.contribution_pushOperator (h : Sorted l) (t : Token) (precedence : Int) :
    Level.contribution v m (l.pushOperator v t precedence) = Level.contribution v m l := by
  have hmoved : ∀ u ∈ l.pending.takeWhile (precedes v precedence), IsOperation u :=
    fun u hu => h.pending u ((List.takeWhile_prefix _).subset hu)
  simp [Level.contribution, Level.pushOperator, flatMap_contribution_of_isOperation hmoved]

/-- A level that is read contributes what its tree contributes. -/
theorem Sorted.map_leaves (hv : v.functions.HasOperators) (h : Sorted l) {e : Expr}
    (hreduce : Yields (reduce v l.start l.finished) n e n') (hm : n'.Extends m) :
    e.leaves.map some = Level.contribution v m l := by
  rw [map_leaves_of_reduce hv h.finished hreduce hm, h.contribution_finished]

end Level

theorem operandAt_of_isOperand {t : Token} {next : Option Token} (hspelled : t.Spelled)
    (ht : t.kind.isOperand = true) (hcall : opensCall t next = false) : operandAt t next = [t] := by
  cases hk : t.kind with
  | tree e => exact absurd hk (hspelled.kind_ne_tree e)
  | _ => simp_all [operandAt, Token.isNumber, TokenKind.isNumber, TokenKind.isIdent,
      TokenKind.isOperand]

theorem operandAt_of_not_isOperand {t : Token} (next : Option Token)
    (ht : t.kind.isOperand = false) : operandAt t next = [] := by
  cases hk : t.kind <;>
    simp_all [operandAt, Token.isNumber, TokenKind.isNumber, TokenKind.isIdent, TokenKind.isOperand]

theorem operandAt_of_opensCall {t : Token} {next : Option Token} (h : opensCall t next = true) :
    operandAt t next = [] := by
  have hident : t.kind.isIdent = true := (Bool.and_eq_true_iff.1 h).1
  have hnumber : t.isNumber = false := by
    cases hk : t.kind <;> simp_all [Token.isNumber, TokenKind.isNumber, TokenKind.isIdent]
  simp [operandAt, h, hnumber]

theorem contribution_of_isOperand {t : Token} (hspelled : t.Spelled)
    (ht : t.kind.isOperand = true) : contribution v m t = [leaf? v m t] := by
  cases hk : t.kind with
  | tree e => exact absurd hk (hspelled.kind_ne_tree e)
  | _ => simp_all [contribution, TokenKind.isOperand]

/-- One step keeps the order. -/
theorem Holds.step (hv : v.functions.HasOperators) {seen : List Token} {s s' : State} {t : Token}
    {next : Option Token} (hspelled : t.Spelled) (h : Holds v seen n s)
    (hstep : Step v t next s n s' n') : Holds v (seen ++ operandAt t next) n' s' := by
  have hlevels := h.levels
  have hcurrent := h.levels.innermost
  have hseen : ∀ m, n'.Extends m → State.contribution v m s = seen.map (leaf? v m) :=
    fun m hm => h.leaves m (hstep.extends.trans hm)
  cases hstep with
  | openParenthesis ht hs =>
      refine ⟨.parenthesis (sorted_empty _) hlevels, fun m hm => ?_⟩
      rw [operandAt_of_not_isOperand next (by rw [ht]; rfl), List.append_nil, ← hseen m hm]
      simp [State.contribution, Level.contribution]
  | @openCall f ht hs =>
      refine ⟨.argument (sorted_empty _) rfl hlevels, fun m hm => ?_⟩
      rw [operandAt_of_not_isOperand next (by rw [ht]; rfl), List.append_nil, ← hseen m hm]
      simp [State.contribution, Level.contribution]
  | comma ht hs houter hcall hreduce =>
      rw [houter] at hlevels
      refine ⟨?_, fun m hm => ?_⟩
      · cases hlevels with
        | parenthesis _ hbase => exact absurd hcall (by simp [hbase.innermost.isCall])
        | argument _ _ hbase => exact .argument (sorted_empty _) hcall hbase
      · rw [operandAt_of_not_isOperand next (by rw [ht]; rfl), List.append_nil, ← hseen m hm]
        simp [State.contribution, houter, contribution_push,
          hcurrent.map_leaves hv hreduce hm]
        rfl
  | closeParenthesis ht hs houter hbase hreduce =>
      rw [houter] at hlevels
      refine ⟨?_, fun m hm => ?_⟩
      · cases hlevels with
        | parenthesis _ htail => exact htail.replace (htail.innermost.push rfl)
        | argument _ hcall _ => exact absurd hcall (by simp [hbase])
      · rw [operandAt_of_not_isOperand next (by rw [ht]; rfl), List.append_nil, ← hseen m hm]
        simp [State.contribution, houter, contribution_push,
          hcurrent.map_leaves hv hreduce hm]
  | @closeCall _ call base outer inner e ht hs houter hcall hinner hreduce =>
      rw [houter] at hlevels
      refine ⟨?_, fun m hm => ?_⟩
      · cases hlevels with
        | parenthesis _ htail => exact absurd hcall (by simp [htail.innermost.isCall])
        | argument _ _ htail => exact htail.replace (htail.innermost.push rfl)
      · rw [operandAt_of_not_isOperand next (by rw [ht]; rfl), List.append_nil, ← hseen m hm]
        have hlast : inner.flatMap (contribution v m) = Level.contribution v m s.current := by
          rcases yields_reduceInner hinner with ⟨-, hempty, rfl, -⟩ | ⟨e', hlast, rfl⟩
          · rw [← hcurrent.contribution_finished, hempty]
          · simp [hcurrent.map_leaves hv hlast hm]
        obtain ⟨name, id, f, args, -, hfind, hget, hargs, hcount, hbuild⟩ :=
          reduceCall_eq_ok hreduce
        have htree : e = callTree id args := by
          rw [build_eq_callTree hv hget hcount] at hbuild
          exact (Except.ok.inj hbuild).symm
        have hleaves : e.leaves.map some =
            Level.contribution v m call ++ Level.contribution v m s.current := by
          rw [htree, Expr.leaves_callTree, map_leaves_of_argumentsOf hargs, List.flatMap_append, hlast]
          rfl
        simp [State.contribution, houter, contribution_push, hleaves]
  | callee ht hs hfind =>
      refine ⟨hlevels, fun m hm => ?_⟩
      rw [operandAt_of_opensCall ht, List.append_nil]
      exact hseen m hm
  | operand ht hs hcall hjoin =>
      refine ⟨hlevels.replace (hcurrent.push ht), fun m hm => ?_⟩
      rw [operandAt_of_isOperand hspelled ht hcall, List.map_append, ← hseen m hm]
      simp [State.contribution, State.push, contribution_push, contribution_of_isOperand hspelled ht]
  | factor ht hs hnext hoperator =>
      obtain ⟨hoperand, hcall⟩ := isOperand_of_isNumber ht next
      have htimes : IsOperation (impliedTimes t.position) :=
        .inr ⟨.multiply, isBinary_impliedTimes _⟩
      have hpush := hcurrent.push hoperand
      refine ⟨hlevels.replace (hpush.pushOperator htimes _), fun m hm => ?_⟩
      rw [operandAt_of_isOperand hspelled hoperand hcall, List.map_append, ← hseen m hm]
      simp [State.contribution, hpush.contribution_pushOperator, contribution_push,
        contribution_of_isOperand hspelled hoperand]
  | operator ht hs hoperator =>
      have hoperation := isOperation_of_spelled hspelled ht
      have hoperand : t.kind.isOperand = false := by
        cases hk : t.kind <;> simp_all [TokenKind.isOperand, TokenKind.isOperator]
      refine ⟨hlevels.replace (hcurrent.pushOperator hoperation _), fun m hm => ?_⟩
      rw [operandAt_of_not_isOperand next hoperand, List.append_nil, ← hseen m hm]
      simp [State.contribution, hcurrent.contribution_pushOperator]

/-- So does a run. -/
theorem Holds.run (hv : v.functions.HasOperators) {tokens seen : List Token} {s s' : State}
    (hspelled : ∀ t ∈ tokens, t.Spelled) (h : Holds v seen n s)
    (hrun : Yields (run v s tokens) n s' n') : Holds v (seen ++ operandsOf tokens) n' s' := by
  induction tokens generalizing s seen n with
  | nil =>
      obtain ⟨rfl, rfl⟩ := yields_pure.1 hrun
      rwa [operandsOf, List.append_nil]
  | cons t rest ih =>
      rw [run_cons] at hrun
      obtain ⟨s₁, n₁, hfirst, hrest⟩ := yields_bind.1 hrun
      have hnext := h.step hv (hspelled t List.mem_cons_self) (step_of_yields hfirst)
      have hlast := ih (fun u hu => hspelled u (List.mem_cons_of_mem _ hu)) hnext hrest
      rwa [List.append_assoc] at hlast

/-! ## Parentheses -/

/-- How many opening parentheses there are. -/
def openings (tokens : List Token) : Nat :=
  tokens.countP (·.kind.isOpen)

/-- How many closing parentheses there are. -/
def closings (tokens : List Token) : Nat :=
  tokens.countP (·.kind.isClose)

/-- No parenthesis is closed before it is opened, and none stays open. -/
structure Balanced (tokens : List Token) : Prop where
  before : ∀ first, first <+: tokens → closings first ≤ openings first
  total : closings tokens = openings tokens

/-- How many parentheses are open: a call has two levels for one parenthesis, of which only the
lower one collects arguments. -/
def State.depth (s : State) : Nat :=
  s.outer.countP fun l => !l.isCall

theorem openings_cons (t : Token) (rest : List Token) :
    openings (t :: rest) = openings [t] + openings rest := by
  rw [openings, List.countP_cons, Nat.add_comm]
  simp [openings, List.countP_cons]

theorem closings_cons (t : Token) (rest : List Token) :
    closings (t :: rest) = closings [t] + closings rest := by
  rw [closings, List.countP_cons, Nat.add_comm]
  simp [closings, List.countP_cons]

theorem openings_singleton_of_isOpen {t : Token} (h : t.kind.isOpen = true) : openings [t] = 1 := by
  simp [openings, h]

theorem closings_singleton_of_isClose {t : Token} (h : t.kind.isClose = true) :
    closings [t] = 1 := by
  simp [closings, h]

theorem openings_singleton_of_not_isOpen {t : Token} (h : t.kind.isOpen = false) :
    openings [t] = 0 := by
  simp [openings, h]

theorem closings_singleton_of_not_isClose {t : Token} (h : t.kind.isClose = false) :
    closings [t] = 0 := by
  simp [closings, h]

/-- Neither an operand nor an operator is a parenthesis. -/
theorem not_parenthesis {t : Token} (h : t.kind.isOperand = true ∨ t.kind.isOperator = true) :
    openings [t] = 0 ∧ closings [t] = 0 := by
  constructor
  · apply openings_singleton_of_not_isOpen
    cases hk : t.kind <;>
      simp_all [TokenKind.isOperand, TokenKind.isOperator, TokenKind.isOpen]
  · apply closings_singleton_of_not_isClose
    cases hk : t.kind <;>
      simp_all [TokenKind.isOperand, TokenKind.isOperator, TokenKind.isClose]

/-- One step opens a level for an opening parenthesis and ends one for a closing parenthesis. -/
theorem Holds.depth_step {seen : List Token} {s s' : State} {t : Token} {next : Option Token}
    (h : Holds v seen n s) (hstep : Step v t next s n s' n') :
    State.depth s' + closings [t] = State.depth s + openings [t] := by
  have hlevels := h.levels
  have hcurrent := hlevels.innermost.isCall
  cases hstep with
  | openParenthesis ht hs =>
      have hopen : openings [t] = 1 := openings_singleton_of_isOpen (by rw [ht]; rfl)
      have hclose : closings [t] = 0 := closings_singleton_of_not_isClose (by rw [ht]; rfl)
      simp [State.depth, hcurrent, hopen, hclose]
  | openCall ht hs =>
      have hopen : openings [t] = 1 := openings_singleton_of_isOpen (by rw [ht]; rfl)
      have hclose : closings [t] = 0 := closings_singleton_of_not_isClose (by rw [ht]; rfl)
      simp [State.depth, hcurrent, hopen, hclose]
  | comma ht hs houter hcall hreduce =>
      have hopen : openings [t] = 0 := openings_singleton_of_not_isOpen (by rw [ht]; rfl)
      have hclose : closings [t] = 0 := closings_singleton_of_not_isClose (by rw [ht]; rfl)
      simp [State.depth, houter, hcall, Level.push, hopen, hclose]
  | closeParenthesis ht hs houter hbase hreduce =>
      have hopen : openings [t] = 0 := openings_singleton_of_not_isOpen (by rw [ht]; rfl)
      have hclose : closings [t] = 1 := closings_singleton_of_isClose (by rw [ht]; rfl)
      simp [State.depth, houter, hbase, hopen, hclose]
  | closeCall ht hs houter hcall hinner hreduce =>
      have hopen : openings [t] = 0 := openings_singleton_of_not_isOpen (by rw [ht]; rfl)
      have hclose : closings [t] = 1 := closings_singleton_of_isClose (by rw [ht]; rfl)
      rw [houter] at hlevels
      cases hlevels with
      | parenthesis _ hbase => exact absurd hcall (by simp [hbase.innermost.isCall])
      | argument _ _ hbase =>
          simp [State.depth, houter, hcall, hbase.innermost.isCall, hopen, hclose]
  | callee ht hs hfind =>
      obtain ⟨hopen, hclose⟩ : openings [t] = 0 ∧ closings [t] = 0 := by
        apply not_parenthesis
        have hident : t.kind.isIdent = true := (Bool.and_eq_true_iff.1 ht).1
        cases hk : t.kind <;> simp_all [TokenKind.isIdent, TokenKind.isOperand]
      simp [State.depth, hopen, hclose]
  | operand ht hs hcall hjoin =>
      obtain ⟨hopen, hclose⟩ := not_parenthesis (.inl ht)
      simp [State.depth, State.push, hopen, hclose]
  | factor ht hs hnext hoperator =>
      obtain ⟨hopen, hclose⟩ := not_parenthesis (.inl (isOperand_of_isNumber ht next).1)
      simp [State.depth, hopen, hclose]
  | operator ht hs hoperator =>
      obtain ⟨hopen, hclose⟩ := not_parenthesis (.inr ht)
      simp [State.depth, hopen, hclose]

/-- So wherever a run has come, as many parentheses are open as there are levels for them. -/
theorem Holds.depth_run (hv : v.functions.HasOperators) {tokens seen : List Token} {s s' : State}
    (hspelled : ∀ t ∈ tokens, t.Spelled) (h : Holds v seen n s)
    (hrun : Yields (Parser.run v s tokens) n s' n') :
    (∀ first, first <+: tokens → closings first ≤ State.depth s + openings first) ∧
      State.depth s' + closings tokens = State.depth s + openings tokens := by
  induction tokens generalizing s seen n with
  | nil =>
      obtain ⟨rfl, -⟩ := yields_pure.1 hrun
      constructor
      · intro first hfirst
        obtain rfl : first = [] := List.prefix_nil.1 hfirst
        exact Nat.zero_le _
      · rfl
  | cons t rest ih =>
      rw [run_cons] at hrun
      obtain ⟨s₁, n₁, hyields, hrest⟩ := yields_bind.1 hrun
      have hstep := step_of_yields hyields
      have hone := h.depth_step hstep
      have hnext := h.step hv (hspelled t List.mem_cons_self) hstep
      obtain ⟨hbefore, htotal⟩ :=
        ih (fun u hu => hspelled u (List.mem_cons_of_mem _ hu)) hnext hrest
      constructor
      · intro first hfirst
        rcases List.prefix_cons_iff.1 hfirst with rfl | ⟨first', rfl, hfirst'⟩
        · exact Nat.zero_le _
        · have hlater := hbefore first' hfirst'
          rw [openings_cons, closings_cons]
          omega
      · rw [openings_cons, closings_cons]
        omega

/-! ## What an accepted text holds -/

/-- In a text that is read without error the parentheses are balanced, and the leaves of its tree
are its numbers, constants and variables in the order in which they are written. -/
theorem leaves_of_parse {c : Calculator} (hc : c.registry.HasOperators) {text : String}
    (h : (c.parse text).1.error? = none) :
    (c.parse text).1.leaves.map some =
        (operandsOf (Token.scan text)).map (leaf? c.vocabulary (c.parse text).2.names) ∧
      Balanced (Token.scan text) := by
  obtain ⟨-, s, n₁, hrun, houter, hreduce⟩ := parse_eq_ok_cases (c.parse_eq_ok h)
  have hspelled : ∀ t ∈ Token.scan text, t.Spelled := fun t ht => Token.spelled_of_mem_scan ht
  have hstart : Holds c.vocabulary [] c.names {} := ⟨.outermost (sorted_empty 0), fun _ _ => rfl⟩
  have hfinal := hstart.run hc hspelled hrun
  rw [List.nil_append] at hfinal
  constructor
  · have hleaves := hfinal.leaves (c.parse text).2.names hreduce.extends_reduce
    have htree := hfinal.levels.innermost.map_leaves hc hreduce (.refl _)
    rw [htree, ← hleaves, State.contribution, houter]
    rfl
  · obtain ⟨hbefore, htotal⟩ := hstart.depth_run hc hspelled hrun
    have hzero : State.depth s = 0 := by rw [State.depth, houter]; rfl
    have hnone : State.depth {} = 0 := rfl
    rw [hnone] at hbefore htotal
    constructor
    · intro first hfirst
      have := hbefore first hfirst
      omega
    · omega

/-- Operands of a sum with a call and a product with an unwritten sign. -/
theorem leaves_two_x_plus_sum :
    ((Calculator.new { constants := true, functions := true }).parse "2x + add(pi, (y))").1.error? =
        none ∧
      ((Calculator.new { constants := true, functions := true }).parse
            "2x + add(pi, (y))").1.leaves.map some =
          (operandsOf (Token.scan "2x + add(pi, (y))")).map
            (leaf? (Calculator.new { constants := true, functions := true }).vocabulary
              ((Calculator.new { constants := true, functions := true }).parse
                "2x + add(pi, (y))").2.names) ∧
        Balanced (Token.scan "2x + add(pi, (y))") := by
  have hnone : ((Calculator.new { constants := true, functions := true }).parse
      "2x + add(pi, (y))").1.error? = none := by decide +kernel
  exact ⟨hnone, leaves_of_parse (Calculator.hasOperators_new _) hnone⟩

end Grammar

end Reckoner
