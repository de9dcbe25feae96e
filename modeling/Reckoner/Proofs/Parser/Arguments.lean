import Reckoner.Proofs.Parser.Leaves

/-!
How many arguments a call is built from.

While the parser reads what stands between the parentheses of a call, the level of that call lies
beneath the levels that have been opened since. The invariant is that it has collected one tree for
every comma read directly inside its parentheses, and that nothing of an argument has been read
exactly after the opening parenthesis or after such a comma. A comma has to end an argument, but the
closing parenthesis does not: it adds an argument only if something of one has been read. What has
been built at the closing parenthesis is found again in the tree of the whole text, where an
operator may have extended it.
-/
namespace Reckoner

/-- A comma. -/
def TokenKind.isComma : TokenKind → Bool
  | comma => true
  | _ => false

namespace Expr

/-- The tree `e` stands somewhere in another one. A call also stands where it has been extended by
further operands. -/
inductive PartOf (e : Expr) : Expr → Prop
  | self : PartOf e e
  | extended {id : FunctionId} {arguments more : List Expr} (h : e = .call id arguments) :
      PartOf e (.call id (arguments ++ more))
  | argument {id : FunctionId} {arguments : List Expr} {a : Expr} (ha : a ∈ arguments)
      (h : PartOf e a) : PartOf e (.call id arguments)
  | target {target value : Expr} (h : PartOf e target) : PartOf e (.assign target value)
  | value {target value : Expr} (h : PartOf e value) : PartOf e (.assign target value)

theorem PartOf.append {e : Expr} {id : FunctionId} {arguments : List Expr}
    (h : PartOf e (.call id arguments)) (more : List Expr) :
    PartOf e (.call id (arguments ++ more)) := by
  cases h with
  | self => exact .extended rfl
  | extended h =>
      rw [List.append_assoc]
      exact .extended h
  | argument ha h => exact .argument (List.mem_append_left more ha) h

theorem PartOf.combine_left {e left : Expr} (h : PartOf e left) (o : BinaryOperator)
    (right : Expr) : PartOf e (o.combine left right) := by
  have hpair : PartOf e (.call o.place [left, right]) := .argument (by simp) h
  unfold BinaryOperator.combine
  split
  · exact .target h
  · split
    · split
      next hflat =>
        obtain ⟨-, hplace⟩ := Bool.and_eq_true_iff.1 hflat
        exact h.append [right]
      next => exact hpair
    · exact hpair

theorem PartOf.combine_right {e right : Expr} (h : PartOf e right) (o : BinaryOperator)
    (left : Expr) : PartOf e (o.combine left right) := by
  have hpair : PartOf e (.call o.place [left, right]) := .argument (by simp) h
  unfold BinaryOperator.combine
  split
  · exact .value h
  · split
    · split
      · exact .argument (by simp) h
      · exact hpair
    · exact hpair

theorem PartOf.callTree {e a : Expr} {arguments : List Expr} (ha : a ∈ arguments)
    (h : PartOf e a) (id : FunctionId) : PartOf e (callTree id arguments) := by
  unfold Reckoner.callTree
  split
  · split
    · rcases List.mem_cons.1 ha with rfl | ha
      · exact .target h
      · obtain rfl := List.mem_singleton.1 ha
        exact .value h
    · exact .argument ha h
  · exact .argument ha h

end Expr

namespace Grammar

open Reckoner.Parser
open Reckoner.Expr (PartOf)

variable {v : Vocabulary} {n n' : Names} {s s' : State} {t : Token} {next : Option Token}

/-! ## What is written -/

/-- How many parentheses are open after the token `t`. -/
def depthAfter (depth : Nat) (t : Token) : Nat :=
  depth + openings [t] - closings [t]

theorem depthAfter_lparen {depth : Nat} (ht : t.kind = .lparen) :
    depthAfter depth t = depth + 1 := by
  simp [depthAfter, openings, closings, ht, TokenKind.isOpen, TokenKind.isClose]

theorem depthAfter_rparen {depth : Nat} (ht : t.kind = .rparen) :
    depthAfter (depth + 1) t = depth := by
  simp [depthAfter, openings, closings, ht, TokenKind.isOpen, TokenKind.isClose]

theorem depthAfter_comma {depth : Nat} (ht : t.kind = .comma) : depthAfter depth t = depth := by
  simp [depthAfter, openings, closings, ht, TokenKind.isOpen, TokenKind.isClose]

/-- The commas outside of all parentheses, where `depth` are open already. -/
def commasAt : Nat → List Token → Nat
  | _, [] => 0
  | depth, t :: rest =>
    (if t.kind.isComma && depth == 0 then 1 else 0) + commasAt (depthAfter depth t) rest

/-- The commas directly inside the parentheses of a call. -/
def directCommas (inner : List Token) : Nat :=
  commasAt 0 inner

/-- Nothing stands between the last comma, or else the opening parenthesis, and the closing one. -/
def endsEmpty (inner : List Token) : Bool :=
  inner.getLast?.all (·.kind.isComma)

/-- The tokens hold a call of `callee`, after `before`, with `inner` in its parentheses. -/
structure CallAt (tokens before : List Token) (callee opening : Token) (inner : List Token)
    (closing : Token) (after : List Token) : Prop where
  split : tokens = before ++ callee :: opening :: inner ++ closing :: after
  callee : callee.kind.isIdent = true
  opening : opening.kind = .lparen
  closing : closing.kind = .rparen
  balanced : Balanced inner

/-! ## Collecting arguments -/

/-- The levels that `depth` opening parentheses have put on top of a level. -/
inductive Above : List Level → Nat → Prop
  | nil : Above [] 0
  | parenthesis {base : Level} {upper : List Level} {depth : Nat} (hbase : base.isCall = false)
      (h : Above upper depth) : Above (base :: upper) (depth + 1)
  | argument {call base : Level} {upper : List Level} {depth : Nat} (hcall : call.isCall = true)
      (hbase : base.isCall = false) (h : Above upper depth) :
      Above (call :: base :: upper) (depth + 1)

/-- The parser reads the arguments of a call of `callee`. The call lies on top of the levels `below`
and has `count` arguments; `depth` more parentheses are open, and if there are none, `fresh` says
that nothing of the next argument has been read. -/
structure Inside (callee : Token) (below : List Level) (depth count : Nat) (fresh : Bool)
    (s : State) : Prop where
  isCall : s.current.isCall = false
  levels : ∃ upper call done, s.outer = upper ++ call :: below ∧ Above upper depth ∧
    Collects callee call done ∧ done.length = count
  fresh : depth = 0 → ((s.current.finished = [] ∧ s.callee = none) ↔ fresh = true)

section Inside

variable {callee : Token} {below : List Level} {depth count : Nat} {fresh : Bool}

/-- An operand or an operator more on the innermost level. -/
theorem Inside.read {u : Token} (h : Inside callee below depth count fresh s) (l : Level)
    (hcall : l.isCall = s.current.isCall) (hperm : l.finished.Perm (u :: s.current.finished)) :
    Inside callee below depth count false { s with current := l } where
  isCall := hcall.trans h.isCall
  levels := h.levels
  fresh := by
    have hne : l.finished ≠ [] := by
      intro hnil
      simpa [hnil] using hperm.length_eq
    simp [hne]

theorem not_isComma (h : t.kind.isOperand = true ∨ t.kind.isOperator = true) :
    t.kind.isComma = false := by
  cases hk : t.kind <;>
    simp_all [TokenKind.isOperand, TokenKind.isOperator, TokenKind.isComma]

/-- Neither an operand nor an operator counts as a comma or changes the depth. -/
theorem Inside.of_read (h : Inside callee below depth count false s)
    (ht : t.kind.isOperand = true ∨ t.kind.isOperator = true) :
    Inside callee below (depthAfter depth t)
      (count + if t.kind.isComma && depth == 0 then 1 else 0) t.kind.isComma s := by
  obtain ⟨hopen, hclose⟩ := not_parenthesis ht
  have hcomma := not_isComma ht
  simpa [depthAfter, hopen, hclose, hcomma] using h

/-- One step that does not end the call keeps the account of its arguments. -/
theorem Inside.step (h : Inside callee below depth count fresh s)
    (hstep : Step v t next s n s' n') (hstay : closings [t] ≤ depth + openings [t]) :
    Inside callee below (depthAfter depth t)
      (count + if t.kind.isComma && depth == 0 then 1 else 0) t.kind.isComma s' := by
  have hisCall := h.isCall
  obtain ⟨upper, level, done, hlevels, habove, hcollects, hcount⟩ := h.levels
  cases hstep with
  | openParenthesis ht hs =>
      rw [depthAfter_lparen ht, ht]
      refine ⟨rfl, ⟨s.current :: upper, level, done, by simp [hlevels], .parenthesis hisCall habove,
        hcollects, by simpa [TokenKind.isComma] using hcount⟩, by simp⟩
  | openCall ht hs =>
      rw [depthAfter_lparen ht, ht]
      refine ⟨rfl, ⟨_ :: s.current :: upper, level, done, by rw [hlevels]; rfl,
        .argument rfl hisCall habove, hcollects, ?_⟩, by simp⟩
      simpa [TokenKind.isComma] using hcount
  | comma ht hs houter hcall hreduce =>
      rw [depthAfter_comma ht, ht]
      rw [hlevels] at houter
      cases habove with
      | nil =>
          obtain ⟨rfl, rfl⟩ := List.cons.inj houter
          refine ⟨rfl, ⟨[], _, _, rfl, .nil, hcollects.push _ _, ?_⟩,
            fun _ => ⟨fun _ => rfl, fun _ => ⟨rfl, rfl⟩⟩⟩
          simp [hcount, TokenKind.isComma]
      | parenthesis hbase _ =>
          obtain ⟨rfl, -⟩ := List.cons.inj houter
          simp [hbase] at hcall
      | argument _ hbase hrest =>
          obtain ⟨rfl, rfl⟩ := List.cons.inj houter
          exact ⟨rfl, ⟨_ :: _ :: _, level, done, rfl, .argument hcall hbase hrest, hcollects,
            by simpa using hcount⟩, by simp⟩
  | closeParenthesis ht hs houter hbase hreduce =>
      rw [hlevels] at houter
      cases habove with
      | nil =>
          obtain ⟨rfl, -⟩ := List.cons.inj houter
          simp [hcollects.isCall] at hbase
      | @parenthesis _ upper depth _ hrest =>
          obtain ⟨rfl, rfl⟩ := List.cons.inj houter
          rw [depthAfter_rparen ht, ht]
          refine ⟨hbase, ⟨upper, level, done, rfl, hrest, hcollects, by simpa using hcount⟩, ?_⟩
          simp [Level.push, Level.finished, TokenKind.isComma]
      | argument hcall _ _ =>
          obtain ⟨rfl, -⟩ := List.cons.inj houter
          simp [hcall] at hbase
  | closeCall ht hs houter hcall hinner hreduce =>
      rw [hlevels] at houter
      cases habove with
      | nil => simp [openings, closings, ht, TokenKind.isOpen, TokenKind.isClose] at hstay
      | parenthesis hbase _ =>
          obtain ⟨rfl, -⟩ := List.cons.inj houter
          simp [hbase] at hcall
      | @argument _ _ upper depth _ hbase hrest =>
          obtain ⟨rfl, htail⟩ := List.cons.inj houter
          obtain ⟨rfl, rfl⟩ := List.cons.inj htail
          rw [depthAfter_rparen ht, ht]
          refine ⟨hbase, ⟨upper, level, done, rfl, hrest, hcollects, by simpa using hcount⟩, ?_⟩
          simp [Level.push, Level.finished, TokenKind.isComma]
  | callee ht hs hfind =>
      have hident : t.kind.isIdent = true := (Bool.and_eq_true_iff.1 ht).1
      have hoperand : t.kind.isOperand = true := by
        cases hk : t.kind <;> simp_all [TokenKind.isIdent, TokenKind.isOperand]
      have hread : Inside callee below depth count false { s with callee := some t } :=
        ⟨hisCall, h.levels, by simp⟩
      exact hread.of_read (.inl hoperand)
  | operand ht hs hcall hjoin =>
      exact (h.read (s.current.push t) rfl (s.current.perm_push t)).of_read (.inl ht)
  | @factor _ f ht hs hnext hoperator =>
      have hpush := h.read (s.current.push t) rfl (s.current.perm_push t)
      have htimes := hpush.read
        ((s.current.push t).pushOperator v (impliedTimes t.position) f.precedence) rfl
        ((s.current.push t).perm_pushOperator _ _)
      exact htimes.of_read (.inl (isOperand_of_isNumber ht next).1)
  | @operator _ f ht hs hoperator =>
      exact (h.read (s.current.pushOperator v t f.precedence) rfl
        (s.current.perm_pushOperator t _)).of_read (.inr ht)

/-- So does a run over tokens that do not end the call. -/
theorem Inside.run {inner rest : List Token} (h : Inside callee below depth count fresh s)
    (hrun : Yields (run v s (inner ++ rest)) n s' n')
    (hstay : ∀ first, first <+: inner → closings first ≤ depth + openings first) :
    ∃ s₁ n₁, Inside callee below (depth + openings inner - closings inner)
        (count + commasAt depth inner) (inner.getLast?.elim fresh (·.kind.isComma)) s₁ ∧
      Yields (run v s₁ rest) n₁ s' n' := by
  induction inner generalizing s n depth count fresh with
  | nil => exact ⟨s, n, h, hrun⟩
  | cons t inner ih =>
      rw [List.cons_append, run_cons] at hrun
      obtain ⟨s₁, n₁, hfirst, hrest⟩ := yields_bind.1 hrun
      have hone := hstay [t] (by simp)
      have hnext := h.step (step_of_yields hfirst) hone
      have hlater : ∀ first, first <+: inner →
          closings first ≤ depthAfter depth t + openings first := by
        intro first hfirst
        have hboth := hstay (t :: first) (by simpa using hfirst)
        rw [openings_cons, closings_cons] at hboth
        unfold depthAfter
        omega
      obtain ⟨s₂, n₂, hinside, hyields⟩ := ih hnext hrest hlater
      refine ⟨s₂, n₂, ?_, hyields⟩
      have hdepth : depth + openings (t :: inner) - closings (t :: inner) =
          depthAfter depth t + openings inner - closings inner := by
        have hall := hlater inner List.prefix_rfl
        rw [openings_cons, closings_cons]
        unfold depthAfter at hall ⊢
        omega
      have hlast : (t :: inner).getLast?.elim fresh (·.kind.isComma) =
          inner.getLast?.elim t.kind.isComma (·.kind.isComma) := by
        rw [List.getLast?_cons]
        cases inner.getLast? <;> rfl
      rw [hdepth, hlast, commasAt, ← Nat.add_assoc]
      exact hinside

/-- The closing parenthesis adds an argument if something of one has been read, and makes the call
of what has been collected. -/
theorem Inside.close (hv : v.functions.HasOperators) {base : Level} {outer : List Level}
    (h : Inside callee (base :: outer) 0 count fresh s) (ht : t.kind = .rparen)
    (hstep : Step v t next s n s' n') :
    ∃ id f arguments position, Callable v callee id f ∧
      f.arity.accepts arguments.length = true ∧
      arguments.length = count + (if fresh then 0 else 1) ∧
      s' = { current := base.push (.ofExpr (callTree id arguments) position), outer } := by
  obtain ⟨upper, level, done, hlevels, habove, hcollects, hcount⟩ := h.levels
  cases habove
  rw [List.nil_append] at hlevels
  cases hstep with
  | @closeCall _ _ _ _ inner e _ hs houter hcall hinner hreduce =>
      rw [hlevels] at houter
      obtain ⟨rfl, htail⟩ := List.cons.inj houter
      obtain ⟨rfl, rfl⟩ := List.cons.inj htail
      -- The last argument is there exactly if its level is not empty.
      obtain ⟨arguments, hfull, hlength⟩ : ∃ arguments,
          Collects callee { level with output := level.output ++ inner } arguments ∧
            arguments.length = count + (if fresh then 0 else 1) := by
        rcases yields_reduceInner hinner with ⟨-, hempty, rfl, -⟩ | ⟨e, hlast, rfl⟩
        · have hfresh : fresh = true := (h.fresh rfl).1 ⟨hempty, hs⟩
          exact ⟨done, by simpa using hcollects, by simp [hfresh, hcount]⟩
        · have hfresh : fresh = false := by
            rw [← Bool.not_eq_true]
            exact fun hfresh => (yields_reduce hlast).1 ((h.fresh rfl).2 hfresh).1
          exact ⟨done ++ [e], hcollects.push e _, by simp [hfresh, hcount]⟩
      obtain ⟨name, id, f, arguments', hname, hfind, hget, harguments, haccepts, hbuild⟩ :=
        reduceCall_eq_ok hreduce
      obtain rfl : callee = name := by
        rw [hfull.pending] at hname
        simpa using hname
      obtain rfl : arguments = arguments' := by
        rw [hfull.arguments] at harguments
        exact Except.ok.inj harguments
      have htree := build_eq_callTree hv hget haccepts
      rw [hbuild] at htree
      obtain rfl := Except.ok.inj htree
      exact ⟨id, f, arguments, level.start, ⟨hfind, hget⟩, haccepts, hlength, rfl⟩
  | closeParenthesis _ hs houter hbase hreduce =>
      rw [hlevels] at houter
      obtain ⟨rfl, -⟩ := List.cons.inj houter
      simp [hcollects.isCall] at hbase
  | callee h' _ _ => simp [opensCall, ht, TokenKind.isIdent] at h'
  | factor h' _ _ _ => simp [Token.isNumber, ht, TokenKind.isNumber] at h'
  | openParenthesis h' _ => simp [ht] at h'
  | openCall h' _ => simp [ht] at h'
  | comma h' _ _ _ _ => simp [ht] at h'
  | operand h' _ _ _ => simp [ht, TokenKind.isOperand] at h'
  | operator h' _ _ => simp [ht, TokenKind.isOperator] at h'

end Inside

/-- A name before an opening parenthesis waits for its arguments. -/
theorem eq_of_step_callee {callee opening : Token} (hcallee : callee.kind.isIdent = true)
    (hopening : opening.kind = .lparen) (h : Yields (step v s callee (some opening)) n s' n') :
    s' = { s with callee := some callee } := by
  have hopens : opensCall callee (some opening) = true := by
    simp [opensCall, hcallee, hopening, TokenKind.isOpen]
  cases hk : callee.kind with
  | ident name =>
      cases step_of_yields h with
      | callee _ _ _ => rfl
      | operand _ _ hcall _ => simp [hopens] at hcall
      | factor h' _ _ _ => simp [Token.isNumber, hk, TokenKind.isNumber] at h'
      | operator h' _ _ => simp [hk, TokenKind.isOperator] at h'
      | _ => simp_all
  | _ => simp [hk, TokenKind.isIdent] at hcallee

/-- A run from the name of a call to its closing parenthesis ends with the call on the innermost
level. -/
theorem exists_arguments_of_run (hv : v.functions.HasOperators) {callee opening closing : Token}
    {inner : List Token} (hcallee : callee.kind.isIdent = true) (hopening : opening.kind = .lparen)
    (hclosing : closing.kind = .rparen) (hbalanced : Balanced inner)
    (h : Yields (run v s (callee :: opening :: inner ++ [closing])) n s' n') :
    ∃ id f arguments position, Callable v callee id f ∧
      f.arity.accepts arguments.length = true ∧
      arguments.length = directCommas inner + (if endsEmpty inner then 0 else 1) ∧
      s' = { current := s.current.push (.ofExpr (callTree id arguments) position)
             outer := s.outer } := by
  rw [List.cons_append, List.cons_append, run_cons] at h
  obtain ⟨s₁, n₁, hname, h⟩ := yields_bind.1 h
  obtain rfl := eq_of_step_callee hcallee hopening hname
  rw [run_cons] at h
  obtain ⟨s₂, n₂, hopen, h⟩ := yields_bind.1 h
  rw [step, hopening] at hopen
  obtain ⟨rfl, rfl⟩ := yields_pure.1 hopen
  have hstart : Inside callee (s.current :: s.outer) 0 0 true
      (State.openLevel { s with callee := some callee } opening.position) :=
    ⟨rfl, ⟨[], _, [], rfl, .nil, ⟨rfl, rfl, rfl⟩, rfl⟩, by simp [State.openLevel, Level.finished]⟩
  obtain ⟨s₃, n₃, hinside, hlast⟩ := hstart.run h (by simpa using hbalanced.before)
  rw [hbalanced.total, Nat.zero_add, Nat.sub_self, Nat.zero_add] at hinside
  rw [run_singleton] at hlast
  obtain ⟨id, f, arguments, position, hcallable, haccepts, hlength, rfl⟩ :=
    hinside.close hv hclosing (step_of_yields hlast)
  have hfresh : inner.getLast?.elim true (·.kind.isComma) = endsEmpty inner := by
    unfold endsEmpty
    cases inner.getLast? <;> rfl
  rw [hfresh] at hlength
  exact ⟨id, f, arguments, position, hcallable, haccepts, hlength, rfl⟩

/-- Any end of a list of tokens is read from some state on. -/
theorem exists_run_of_append {tokens rest : List Token}
    (h : Yields (run v s (tokens ++ rest)) n s' n') :
    ∃ s₁ n₁, Yields (run v s₁ rest) n₁ s' n' := by
  induction tokens generalizing s n with
  | nil => exact ⟨s, n, h⟩
  | cons t tokens ih =>
      rw [List.cons_append, run_cons] at h
      obtain ⟨s₁, n₁, -, hrest⟩ := yields_bind.1 h
      exact ih hrest

/-- A comma ends an argument of which something has been read, and begins one. -/
theorem finished_of_step_comma (ht : t.kind = .comma) (h : Yields (step v s t next) n s' n') :
    s.current.finished ≠ [] ∧ s'.current.finished = [] := by
  cases step_of_yields h with
  | comma _ _ _ _ hreduce => exact ⟨(yields_reduce hreduce).1, rfl⟩
  | callee h' _ _ => simp [opensCall, ht, TokenKind.isIdent] at h'
  | factor h' _ _ _ => simp [Token.isNumber, ht, TokenKind.isNumber] at h'
  | operand h' _ _ _ => simp [ht, TokenKind.isOperand] at h'
  | operator h' _ _ => simp [ht, TokenKind.isOperator] at h'
  | _ => simp_all

/-- Before a comma stands something other than an opening parenthesis or a comma. -/
theorem ne_before_comma {tokens rest : List Token} {t comma : Token} (hcomma : comma.kind = .comma)
    (h : Yields (run v s (tokens ++ t :: comma :: rest)) n s' n') :
    t.kind ≠ .lparen ∧ t.kind ≠ .comma := by
  obtain ⟨s₁, n₁, h⟩ := exists_run_of_append h
  rw [run_cons] at h
  obtain ⟨s₂, n₂, hfirst, h⟩ := yields_bind.1 h
  rw [run_cons] at h
  obtain ⟨s₃, n₃, hsecond, -⟩ := yields_bind.1 h
  have hfinished := (finished_of_step_comma hcomma hsecond).1
  constructor
  · intro ht
    rw [step, ht] at hfirst
    obtain ⟨rfl, -⟩ := yields_pure.1 hfirst
    exact hfinished rfl
  · intro ht
    exact hfinished (finished_of_step_comma ht hfirst).2

/-! ## What becomes of a call -/

/-- The token stands for a tree that `e` is part of. -/
def Carries (e : Expr) (t : Token) : Prop :=
  ∃ whole, t.kind = .tree whole ∧ PartOf e whole

section Carries

variable {e : Expr}

theorem carries_ofExpr {whole : Expr} (h : PartOf e whole) (position : Nat) :
    Carries e (.ofExpr whole position) :=
  ⟨whole, rfl, h⟩

/-- A token in postfix order loses no part of the trees on the stack, and adds its own. -/
theorem exists_partOf_of_reduceToken (hv : v.functions.HasOperators) {stack stack' : List Expr}
    (ht : t.kind.isOperand = true ∨ IsOperation t)
    (h : Yields (reduceToken v stack t) n stack' n')
    (he : (∃ whole ∈ stack, PartOf e whole) ∨ Carries e t) :
    ∃ whole ∈ stack', PartOf e whole := by
  rcases ht with ht | ht | ⟨o, ht⟩
  · obtain ⟨a, ha, rfl⟩ := yields_reduceToken_operand ht h
    rcases he with ⟨whole, hmem, hpart⟩ | ⟨whole, hk, hpart⟩
    · exact ⟨whole, List.mem_cons_of_mem _ hmem, hpart⟩
    · simp only [Parser.operand, hk] at ha
      obtain ⟨rfl, -⟩ := yields_pure.1 ha
      exact ⟨_, List.mem_cons_self, hpart⟩
  · obtain ⟨a, rest, rfl, rfl, -⟩ := yields_reduceToken_negate hv ht h
    rcases he with ⟨whole, hmem, hpart⟩ | ⟨whole, hk, -⟩
    · rcases List.mem_cons.1 hmem with rfl | hmem
      · exact ⟨_, List.mem_cons_self, .argument List.mem_cons_self hpart⟩
      · exact ⟨whole, List.mem_cons_of_mem _ hmem, hpart⟩
    · simp [ht] at hk
  · obtain ⟨left, right, rest, rfl, rfl, -⟩ := yields_reduceToken_binary hv ht h
    rcases he with ⟨whole, hmem, hpart⟩ | ⟨whole, hk, -⟩
    · rcases List.mem_cons.1 hmem with rfl | hmem
      · exact ⟨_, List.mem_cons_self, hpart.combine_right o left⟩
      rcases List.mem_cons.1 hmem with rfl | hmem
      · exact ⟨_, List.mem_cons_self, hpart.combine_left o right⟩
      · exact ⟨whole, List.mem_cons_of_mem _ hmem, hpart⟩
    · rw [ht.1] at hk
      cases o <;> cases hk

theorem exists_partOf_of_foldlM (hv : v.functions.HasOperators) {tokens : List Token}
    {stack stack' : List Expr} (htokens : ∀ t ∈ tokens, t.kind.isOperand = true ∨ IsOperation t)
    (h : Yields (tokens.foldlM (reduceToken v) stack) n stack' n')
    (he : (∃ whole ∈ stack, PartOf e whole) ∨ ∃ t ∈ tokens, Carries e t) :
    ∃ whole ∈ stack', PartOf e whole := by
  induction tokens generalizing stack n with
  | nil =>
      obtain ⟨rfl, -⟩ := yields_pure.1 h
      simpa using he
  | cons t rest ih =>
      obtain ⟨stack₁, n₁, hfirst, hrest⟩ := yields_foldlM_cons.1 h
      have htoken := exists_partOf_of_reduceToken (e := e) hv (htokens t List.mem_cons_self) hfirst
      refine ih (fun u hu => htokens u (List.mem_cons_of_mem _ hu)) hrest ?_
      rcases he with he | ⟨u, hu, hcarries⟩
      · exact .inl (htoken (.inl he))
      · rcases List.mem_cons.1 hu with rfl | hu
        · exact .inl (htoken (.inr hcarries))
        · exact .inr ⟨u, hu, hcarries⟩

/-- The finished part of the level has a tree that `e` is part of. -/
def Level.Carries (e : Expr) (l : Level) : Prop :=
  ∃ t ∈ l.output, Grammar.Carries e t

/-- The tree of a level has the parts of its trees. -/
theorem Level.Carries.partOf (hv : v.functions.HasOperators) {l : Level} (hl : Sorted l)
    (h : Level.Carries e l) {start : Nat} {whole : Expr}
    (hreduce : Yields (reduce v start l.finished) n whole n') : PartOf e whole := by
  obtain ⟨t, ht, hcarries⟩ := h
  obtain ⟨whole', hmem, hpart⟩ := exists_partOf_of_foldlM hv hl.finished (yields_reduce hreduce).2
    (.inr ⟨t, List.mem_append_left _ ht, hcarries⟩)
  obtain rfl := List.mem_singleton.1 hmem
  exact hpart

theorem Level.Carries.append {l : Level} (h : Level.Carries e l) (more pending : List Token) :
    Level.Carries e { l with output := l.output ++ more, pending } := by
  obtain ⟨t, ht, hcarries⟩ := h
  exact ⟨t, List.mem_append_left _ ht, hcarries⟩

theorem Level.carries_push (l : Level) {whole : Expr} (h : PartOf e whole) (position : Nat) :
    Level.Carries e (l.push (.ofExpr whole position)) :=
  ⟨_, List.mem_append_right _ List.mem_cons_self, carries_ofExpr h position⟩

theorem mem_of_argumentsOf {tokens : List Token} {arguments : List Expr} {a : Expr}
    (h : argumentsOf tokens = .ok arguments) (ht : t ∈ tokens) (hk : t.kind = .tree a) :
    a ∈ arguments := by
  have hkind : t.kind ∈ arguments.map TokenKind.tree := by
    rw [← kinds_of_argumentsOf h]
    exact List.mem_map_of_mem ht
  obtain ⟨b, hb, htree⟩ := List.mem_map.1 hkind
  rw [hk] at htree
  cases htree
  exact hb

/-- The tree of a call has the parts of its arguments. -/
theorem Level.Carries.partOf_call (hv : v.functions.HasOperators) {l : Level}
    (h : Level.Carries e l) {whole : Expr} (hreduce : reduceCall v l = .ok whole) :
    PartOf e whole := by
  obtain ⟨t, ht, a, hk, hpart⟩ := h
  obtain ⟨name, id, f, arguments, -, -, hget, harguments, haccepts, hbuild⟩ :=
    reduceCall_eq_ok hreduce
  rw [build_eq_callTree hv hget haccepts] at hbuild
  obtain rfl := Except.ok.inj hbuild
  exact hpart.callTree (mem_of_argumentsOf harguments ht hk) id

/-- Some open level has a tree that `e` is part of. -/
def State.Carries (e : Expr) (s : State) : Prop :=
  Level.Carries e s.current ∨ ∃ l ∈ s.outer, Level.Carries e l

/-- One step keeps the parts of all trees. -/
theorem State.Carries.step (hv : v.functions.HasOperators) (hs : Sorted s.current)
    (h : State.Carries e s) (hstep : Step v t next s n s' n') : State.Carries e s' := by
  cases hstep with
  | openParenthesis _ _ =>
      rcases h with h | ⟨l, hl, h⟩
      · exact .inr ⟨s.current, by simp, h⟩
      · exact .inr ⟨l, by simp [hl], h⟩
  | openCall _ _ =>
      rcases h with h | ⟨l, hl, h⟩
      · exact .inr ⟨s.current, by simp, h⟩
      · exact .inr ⟨l, by simp [hl], h⟩
  | comma _ _ houter _ hreduce =>
      rcases h with h | ⟨l, hl, h⟩
      · exact .inr ⟨_, List.mem_cons_self, Level.carries_push _ (h.partOf hv hs hreduce) _⟩
      · rw [houter] at hl
        rcases List.mem_cons.1 hl with rfl | hl
        · exact .inr ⟨_, List.mem_cons_self, h.append _ _⟩
        · exact .inr ⟨l, List.mem_cons_of_mem _ hl, h⟩
  | closeParenthesis _ _ houter _ hreduce =>
      rcases h with h | ⟨l, hl, h⟩
      · exact .inl (Level.carries_push _ (h.partOf hv hs hreduce) _)
      · rw [houter] at hl
        rcases List.mem_cons.1 hl with rfl | hl
        · exact .inl (h.append _ _)
        · exact .inr ⟨l, hl, h⟩
  | @closeCall _ call _ _ _ _ _ _ houter _ hinner hreduce =>
      rcases h with h | ⟨l, hl, h⟩
      · rcases yields_reduceInner hinner with ⟨-, hempty, -, -⟩ | ⟨whole, hlast, rfl⟩
        · obtain ⟨u, hu, -⟩ := h
          have hmem : u ∈ s.current.finished := List.mem_append_left _ hu
          simp [hempty] at hmem
        · have hcall := Level.carries_push call (h.partOf hv hs hlast) s.current.start
          exact .inl (Level.carries_push _ (hcall.partOf_call hv hreduce) _)
      · rw [houter] at hl
        rcases List.mem_cons.1 hl with rfl | hl
        · exact .inl (Level.carries_push _ ((h.append _ _).partOf_call hv hreduce) _)
        · rcases List.mem_cons.1 hl with rfl | hl
          · exact .inl (h.append _ _)
          · exact .inr ⟨l, hl, h⟩
  | callee _ _ _ => exact h
  | operand _ _ _ _ => exact h.imp_left fun h => h.append _ _
  | factor _ _ _ _ => exact h.imp_left fun h => (h.append _ _).append _ _
  | operator _ _ _ => exact h.imp_left fun h => h.append _ _

/-- So does a run. -/
theorem State.Carries.run (hv : v.functions.HasOperators) {tokens seen : List Token}
    (hspelled : ∀ t ∈ tokens, t.Spelled) (hs : Holds v seen n s) (h : State.Carries e s)
    (hrun : Yields (run v s tokens) n s' n') : State.Carries e s' := by
  induction tokens generalizing s seen n with
  | nil =>
      obtain ⟨rfl, -⟩ := yields_pure.1 hrun
      exact h
  | cons t rest ih =>
      rw [run_cons] at hrun
      obtain ⟨s₁, n₁, hfirst, hrest⟩ := yields_bind.1 hrun
      have hstep := step_of_yields hfirst
      exact ih (fun u hu => hspelled u (List.mem_cons_of_mem _ hu))
        (hs.step hv (hspelled t List.mem_cons_self) hstep)
        (h.step hv hs.levels.innermost hstep) hrest

end Carries

/-! ## Calls in a text -/

/-- A calculator that parses the text makes a call of `callee` with these arguments when it has read
the tokens `upTo`, and the call stays a part of the tree of the whole text. -/
structure MakesCall (c : Calculator) (text : String) (upTo : List Token) (callee : Token)
    (id : FunctionId) (arguments : List Expr) : Prop where
  callable : ∃ f, Callable c.vocabulary callee id f ∧ f.arity.accepts arguments.length = true
  made : ∃ s n position, Yields (run c.vocabulary {} upTo) c.names s n ∧
    s.current.output.getLast? = some (.ofExpr (callTree id arguments) position)
  partOf : PartOf (callTree id arguments) (c.parse text).1

section Text

variable {c : Calculator} {text : String}

/-- Each call in a text that is read without error has been made with as many arguments as there are
commas directly inside its parentheses, and one more unless it ends with nothing. -/
theorem exists_makesCall (hc : c.registry.HasOperators) (h : (c.parse text).1.error? = none)
    {before inner after : List Token} {callee opening closing : Token}
    (hcall : CallAt (Token.scan text) before callee opening inner closing after) :
    ∃ id arguments,
      MakesCall c text (before ++ callee :: opening :: inner ++ [closing]) callee id arguments ∧
      arguments.length = directCommas inner + (if endsEmpty inner then 0 else 1) := by
  obtain ⟨-, s, n, hrun, houter, hreduce⟩ := parse_eq_ok_cases (c.parse_eq_ok h)
  have hspelled : ∀ t ∈ Token.scan text, t.Spelled := fun t ht => Token.spelled_of_mem_scan ht
  have hsplit : Token.scan text =
      (before ++ callee :: opening :: inner ++ [closing]) ++ after := by
    rw [hcall.split]
    simp
  rw [hsplit] at hrun hspelled
  -- The closing parenthesis neither calls nor multiplies, so the run can be cut after it.
  have hnumber : closing.isNumber = false := by
    simp [Token.isNumber, hcall.closing, TokenKind.isNumber]
  rw [run_append _ _ _ closing List.getLast?_concat
    (by simp [opensCall, hcall.closing, TokenKind.isIdent]),
    joinNext_of_not_isNumber hnumber] at hrun
  obtain ⟨s₁, n₁, hfirst, hrest⟩ := yields_bind.1 hrun
  rw [pure_bind] at hrest
  have hmiddle := hfirst
  rw [List.append_assoc] at hmiddle
  obtain ⟨s₀, n₀, hmiddle⟩ := exists_run_of_append hmiddle
  obtain ⟨id, f, arguments, position, hcallable, haccepts, hlength, rfl⟩ :=
    exists_arguments_of_run hc hcall.callee hcall.opening hcall.closing hcall.balanced hmiddle
  have hstart : Holds c.vocabulary [] c.names {} := ⟨.outermost (sorted_empty 0), fun _ _ => rfl⟩
  have hholds := hstart.run hc (fun t ht => hspelled t (List.mem_append_left _ ht)) hfirst
  have hafter : ∀ t ∈ after, t.Spelled := fun t ht => hspelled t (List.mem_append_right _ ht)
  have hcarries : State.Carries (callTree id arguments) s :=
    State.Carries.run hc hafter hholds (.inl (Level.carries_push _ .self position)) hrest
  have hsorted := (hholds.run hc hafter hrest).levels.innermost
  refine ⟨id, arguments, ⟨⟨f, hcallable, haccepts⟩, ⟨_, n₁, position, hfirst, by simp [Level.push]⟩,
    ?_⟩, hlength⟩
  rcases hcarries with hcarries | ⟨l, hl, -⟩
  · exact hcarries.partOf hc hsorted hreduce
  · simp [houter] at hl

/-- In a text that is read without error, each call is made with one argument more than there are
commas directly inside its parentheses, unless nothing stands between the last of them, or else the
opening parenthesis, and the closing one: then there are as many arguments as commas. Nowhere else
is an argument missing. -/
theorem arguments_of_parse (hc : c.registry.HasOperators) (h : (c.parse text).1.error? = none) :
    (∀ before callee opening inner closing after,
      CallAt (Token.scan text) before callee opening inner closing after →
      ∃ id arguments,
        MakesCall c text (before ++ callee :: opening :: inner ++ [closing]) callee id arguments ∧
        arguments.length = directCommas inner + (if endsEmpty inner then 0 else 1)) ∧
      ∀ before t comma after, Token.scan text = before ++ t :: comma :: after →
        comma.kind = .comma → t.kind ≠ .lparen ∧ t.kind ≠ .comma := by
  refine ⟨fun _ _ _ _ _ _ hcall => exists_makesCall hc h hcall, ?_⟩
  intro before t comma after hsplit hcomma
  obtain ⟨-, s, n, hrun, -, -⟩ := parse_eq_ok_cases (c.parse_eq_ok h)
  rw [hsplit] at hrun
  exact ne_before_comma hcomma hrun

end Text

/-- A sum of three, one of them a call around a parenthesis. -/
theorem arguments_of_sum :
    ((Calculator.new { constants := true, functions := true }).parse
        "add(1, cos((x)), 3)").1.error? = none ∧
      (∀ before callee opening inner closing after,
        CallAt (Token.scan "add(1, cos((x)), 3)") before callee opening inner closing after →
        ∃ id arguments,
          MakesCall (Calculator.new { constants := true, functions := true }) "add(1, cos((x)), 3)"
            (before ++ callee :: opening :: inner ++ [closing]) callee id arguments ∧
          arguments.length = directCommas inner + (if endsEmpty inner then 0 else 1)) ∧
        ∀ before t comma after, Token.scan "add(1, cos((x)), 3)" = before ++ t :: comma :: after →
          comma.kind = .comma → t.kind ≠ .lparen ∧ t.kind ≠ .comma := by
  have hnone : ((Calculator.new { constants := true, functions := true }).parse
      "add(1, cos((x)), 3)").1.error? = none := by decide +kernel
  exact ⟨hnone, arguments_of_parse (Calculator.hasOperators_new _) hnone⟩

/-- `abs(1,)` is read without error, and the call has one argument for its one comma. -/
theorem not_one_more_abs :
    ((Calculator.new { constants := true, functions := true }).parse "abs(1,)").1.error? = none ∧
      ¬ ∀ before callee opening inner closing after id arguments,
        CallAt (Token.scan "abs(1,)") before callee opening inner closing after → inner ≠ [] →
        MakesCall (Calculator.new { constants := true, functions := true }) "abs(1,)"
          (before ++ callee :: opening :: inner ++ [closing]) callee id arguments →
        arguments.length = directCommas inner + 1 := by
  have hnone : ((Calculator.new { constants := true, functions := true }).parse
      "abs(1,)").1.error? = none := by decide +kernel
  refine ⟨hnone, fun hone => ?_⟩
  let inner : List Token := [.classify ['1'] 4, .classify [','] 5]
  have hflat : openings inner = 0 ∧ closings inner = 0 := by decide +kernel
  have hbalanced : Balanced inner := by
    refine ⟨fun first hfirst => ?_, hflat.2.trans hflat.1.symm⟩
    have hle : closings first ≤ closings inner := hfirst.sublist.countP_le
    omega
  have hcall : CallAt (Token.scan "abs(1,)") [] (.classify ['a', 'b', 's'] 0) (.classify ['('] 3)
      inner (.classify [')'] 6) [] :=
    ⟨rfl, by decide +kernel, rfl, rfl, hbalanced⟩
  obtain ⟨id, arguments, hmakes, hlength⟩ :=
    exists_makesCall (Calculator.hasOperators_new _) hnone hcall
  have hmore := hone _ _ _ _ _ _ id arguments hcall (by simp [inner]) hmakes
  have hempty : endsEmpty inner = true := by decide +kernel
  rw [hempty] at hlength
  simp only [if_true] at hlength
  omega

end Grammar

end Reckoner
