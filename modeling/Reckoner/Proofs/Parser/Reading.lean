import Reckoner.Proofs.Parser.Postfix

/-!
Expressions of the infix grammar are read as the grammar says.

The invariant behind it is about a part of a nesting level. Reading an expression whose operators
have precedence `p` or more, on top of waiting operators that bind less tightly, leaves those
waiting, puts some tokens into the postfix order and leaves others waiting above them; together the
new tokens reduce to the tree of the expression, whatever stands on the stack.
-/
namespace Reckoner

namespace Parser

/-- The state with further tokens in postfix order and further operators waiting on top. -/
def State.extend (s : State) (output waiting : List Token) : State :=
  { s with current := { s.current with
      output := s.current.output ++ output
      pending := waiting ++ s.current.pending } }

@[simp] theorem State.extend_extend (s : State) (output waiting output' waiting' : List Token) :
    (s.extend output waiting).extend output' waiting' =
      s.extend (output ++ output') (waiting' ++ waiting) := by
  simp [extend]

theorem State.push_eq_extend (s : State) (t : Token) : s.push t = s.extend [t] [] :=
  rfl

/-- The operator that waits last, if there is one, binds less tightly than `p`. -/
def Below (v : Vocabulary) (p : Nat) (pending : List Token) : Prop :=
  ∀ t : Token, pending.head? = some t → precedes v p t = false

theorem precedes_mono {v : Vocabulary} {p q : Int} (hpq : p ≤ q) {t : Token}
    (h : precedes v q t = true) : precedes v p t = true := by
  unfold precedes at *
  cases ho : operator? v t with
  | none => simp [ho] at h
  | some o =>
      simp only [ho, decide_eq_true_eq] at h ⊢
      omega

theorem Below.mono {v : Vocabulary} {p q : Nat} (hpq : p ≤ q) {pending : List Token}
    (h : Below v p pending) : Below v q pending := by
  intro t ht
  cases hq : precedes v q t with
  | false => rfl
  | true =>
      have hp : precedes v p t = true := precedes_mono (by exact_mod_cast hpq) hq
      rw [h t ht] at hp
      cases hp

/-- An operator sends out what waits above the looser operators, and waits in its place. -/
theorem Level.pushOperator_of_below {v : Vocabulary} {p : Nat} {l : Level} {t : Token}
    {waiting pending : List Token} (hl : l.pending = waiting ++ pending)
    (hwaiting : ∀ t ∈ waiting, precedes v p t = true) (hbelow : Below v p pending) :
    l.pushOperator v t p =
      { l with output := l.output ++ waiting, pending := t :: pending } := by
  have htake : pending.takeWhile (precedes v p) = [] := by
    cases pending with
    | nil => rfl
    | cons top rest => simp [hbelow top rfl]
  have hdrop : pending.dropWhile (precedes v p) = pending := by
    cases pending with
    | nil => rfl
    | cons top rest => simp [hbelow top rfl]
  simp [pushOperator, hl, List.takeWhile_append_of_pos hwaiting,
    List.dropWhile_append_of_pos hwaiting, htake, hdrop]

end Parser

namespace Grammar

open Reckoner.Parser

variable {v : Vocabulary} {n n' : Names}

/-! ## Steps -/

theorem isOpen_of_isBinary {o : BinaryOperator} {t : Token} (h : IsBinary o t) :
    t.kind.isOpen = false := by
  rw [h.1]
  cases o <;> rfl

theorem isIdent_of_isBinary {o : BinaryOperator} {t : Token} (h : IsBinary o t) :
    t.kind.isIdent = false := by
  rw [h.1]
  cases o <;> rfl

theorem step_binary {o : BinaryOperator} {t : Token} (h : IsBinary o t) {s : State}
    (hs : s.callee = none) (next : Option Token) : step v s t next = s.operator v t := by
  rw [step, h.1, hs]
  cases o <;> rfl

/-- An operator sends out the tokens that wait for it and waits itself. -/
theorem yields_operator (hv : v.functions.HasOperators) {o : BinaryOperator} {t : Token}
    (ht : IsBinary o t) {s : State} {output waiting : List Token}
    (hbelow : Below v o.precedence s.current.pending)
    (hwaiting : ∀ t ∈ waiting, precedes v o.precedence t = true) :
    Yields ((s.extend output waiting).operator v t) n (s.extend (output ++ waiting) [t]) n := by
  simp only [State.operator, operator?_of_isBinary hv ht, o.precedence_description, yields_pure,
    and_true]
  rw [Level.pushOperator_of_below rfl hwaiting hbelow]
  simp [State.extend]

/-- The level on which an operator waits is below every tighter expression. -/
theorem below_cons_binary (hv : v.functions.HasOperators) {o : BinaryOperator} {t : Token}
    (ht : IsBinary o t) (pending : List Token) : Below v (o.precedence + 1) (t :: pending) := by
  intro top htop
  obtain rfl : t = top := by simpa using htop
  simp only [precedes, operator?_of_isBinary hv ht, o.precedence_description, decide_eq_false_iff_not]
  omega

theorem precedes_binary (hv : v.functions.HasOperators) {o : BinaryOperator} {t : Token}
    (ht : IsBinary o t) : precedes v o.precedence t = true := by
  simp [precedes, operator?_of_isBinary hv ht]

/-- A token that is neither a name nor an opening parenthesis leaves what stands before it alone. -/
theorem run_append_cons {tokens rest : List Token} {t : Token} (hne : tokens ≠ [])
    (hopen : t.kind.isOpen = false) (hident : t.kind.isIdent = false) (s : State) :
    run v s (tokens ++ t :: rest) = run v s tokens >>= fun s => run v s (t :: rest) := by
  obtain ⟨last, hlast⟩ := Option.isSome_iff_exists.1 (List.getLast?_isSome.2 hne)
  have hcall : opensCall last (some t) = false := by
    simp [opensCall, hopen]
  have hjoin : joinNext v last (some t) = pure := by
    funext s
    simp [joinNext, opensOperand, hopen, hident]
  rw [run_append s tokens (t :: rest) last hlast hcall, List.head?_cons, hjoin]
  simp only [pure_bind]

/-! ## The invariant -/

/-- Reading the tokens on top of operators looser than `p` adds tokens that reduce to the tree;
those that still wait have precedence `p` or more. -/
def Reads (v : Vocabulary) (p : Nat) (tokens : List Token) (tree : NamedTree) : Prop :=
  ∀ (s : State) (n : Names), s.callee = none → s.current.isCall = false →
    Below v p s.current.pending →
    ∃ (output waiting : List Token) (n' : Names), n.Extends n' ∧
      (∀ t ∈ waiting, precedes v p t = true) ∧ Reduces v (output ++ waiting) tree n' ∧
      Yields (run v s tokens) n (s.extend output waiting) n'

/-- A token that is an operand by itself. -/
theorem Reads.operand {p : Nat} {t : Token} {tree : NamedTree}
    (hstep : ∀ s : State, s.callee = none → step v s t none = pure (s.push t))
    (hreduces : ∀ n, Reduces v [t] tree n) : Reads v p [t] tree := by
  intro s n hs _ _
  refine ⟨[t], [], n, Names.Extends.refl n, by simp, hreduces n, ?_⟩
  rw [run_singleton, hstep s hs]
  exact yields_pure.2 ⟨s.push_eq_extend t, rfl⟩

theorem Reads.loosen {p : Nat} {tokens : List Token} {tree : NamedTree}
    (h : Reads v (p + 1) tokens tree) : Reads v p tokens tree := by
  intro s n hs hcall hbelow
  obtain ⟨output, waiting, n', hn, hwaiting, hreduces, hyields⟩ :=
    h s n hs hcall (hbelow.mono (Nat.le_succ p))
  exact ⟨output, waiting, n', hn,
    fun t ht => precedes_mono (by omega) (hwaiting t ht), hreduces, hyields⟩

theorem Reads.negate (hv : v.functions.HasOperators) {t : Token} (ht : t.kind = .negate)
    {tokens : List Token} {tree : NamedTree} (h : Reads v tightest tokens tree) :
    Reads v sign (t :: tokens) fun numbering => .call Standard.negation [tree numbering] := by
  intro s n hs hcall hbelow
  have hoperator : operator? v t = some (Standard.negation, Standard.negationDescription) :=
    operator?_of_negate hv ht
  have hprecedence : Standard.negationDescription.precedence = ((sign : Nat) : Int) := rfl
  have hstep : ∀ next, Yields (step v s t next) n (s.extend [] [t]) n := by
    intro next
    have hstep : step v s t next = s.operator v t := by
      rw [step, ht, hs]
    rw [hstep]
    simp only [State.operator, hoperator, yields_pure, and_true, hprecedence]
    have hnone : s.current.pending = [] ++ s.current.pending := rfl
    rw [Level.pushOperator_of_below hnone (by simp) hbelow]
    simp [State.extend]
  have habove : Below v tightest (s.extend [] [t]).current.pending := by
    intro top htop
    obtain rfl : t = top := by simpa [State.extend] using htop
    simp only [precedes, hoperator, hprecedence]
    decide
  obtain ⟨output, waiting, n', hn, hwaiting, hreduces, hyields⟩ :=
    h (s.extend [] [t]) n hs hcall habove
  refine ⟨output, waiting ++ [t], n', hn, ?_, ?_, ?_⟩
  · intro u hu
    rcases List.mem_append.1 hu with hu | hu
    · exact precedes_mono (by decide) (hwaiting u hu)
    · obtain rfl : u = t := by simpa using hu
      simp [precedes, hoperator, hprecedence]
  · rw [← List.append_assoc]
    exact hreduces.negate hv ht
  · rw [run_cons]
    refine (hstep _).bind ?_
    simpa using hyields

/-- A left operand, an operator and a right operand. How the operator comes to be added between the
two is left open, since the `*` after a number may be unwritten. -/
theorem Reads.join (hv : v.functions.HasOperators) {o : BinaryOperator} {t : Token}
    (ht : IsBinary o t) {tokens left right : List Token} {leftTree rightTree : NamedTree}
    (hleft : Reads v o.precedence left leftTree) (hright : Reads v (o.precedence + 1) right rightTree)
    (hrun : ∀ {s s₁ s₂ s₃ : State} {n n₁ n₂ n₃ : Names}, s₁.callee = none →
      Yields (run v s left) n s₁ n₁ → Yields (s₁.operator v t) n₁ s₂ n₂ →
      Yields (run v s₂ right) n₂ s₃ n₃ → Yields (run v s tokens) n s₃ n₃) :
    Reads v o.precedence tokens
      fun numbering => o.combine (leftTree numbering) (rightTree numbering) := by
  intro s n hs hcall hbelow
  obtain ⟨output, waiting, n₁, hn₁, hwaiting, hreduces, hyields⟩ := hleft s n hs hcall hbelow
  obtain ⟨output', waiting', n₂, hn₂, hwaiting', hreduces', hyields'⟩ :=
    hright (s.extend (output ++ waiting) [t]) n₁ hs hcall (below_cons_binary hv ht _)
  refine ⟨output ++ waiting ++ output', waiting' ++ [t], n₂, hn₁.trans hn₂, ?_, ?_, ?_⟩
  · intro u hu
    rcases List.mem_append.1 hu with hu | hu
    · exact precedes_mono (by omega) (hwaiting' u hu)
    · obtain rfl : u = t := by simpa using hu
      exact precedes_binary hv ht
  · have hboth := (hreduces.extends hn₂).binary hv ht hreduces'
    simpa only [List.append_assoc] using hboth
  · have hoperator : Yields ((s.extend output waiting).operator v t) n₁
        (s.extend (output ++ waiting) [t]) n₁ := yields_operator hv ht hbelow hwaiting
    have hs₁ : (s.extend output waiting).callee = none := hs
    have hall := hrun hs₁ hyields hoperator hyields'
    simpa only [State.extend_extend] using hall

theorem Reads.binary (hv : v.functions.HasOperators) {o : BinaryOperator} {t : Token}
    (ht : IsBinary o t) {left right : List Token} {leftTree rightTree : NamedTree}
    (hne : left ≠ []) (hleft : Reads v o.precedence left leftTree)
    (hright : Reads v (o.precedence + 1) right rightTree) :
    Reads v o.precedence (left ++ t :: right)
      fun numbering => o.combine (leftTree numbering) (rightTree numbering) := by
  refine hleft.join hv ht hright ?_
  intro s s₁ s₂ s₃ n n₁ n₂ n₃ hs₁ h₁ h₂ h₃
  rw [run_append_cons hne (isOpen_of_isBinary ht) (isIdent_of_isBinary ht)]
  refine h₁.bind ?_
  rw [run_cons, step_binary ht hs₁]
  exact h₂.bind h₃

/-- A number before a name or an opening parenthesis is multiplied with what follows. -/
theorem Reads.adjoin (hv : v.functions.HasOperators) {number next : Token}
    {left right : List Token} {leftTree rightTree : NamedTree}
    (hlast : left.getLast? = some number) (hnumber : number.isNumber = true)
    (hnext : right.head? = some next) (hopens : (next.kind.isOpen || next.kind.isIdent) = true)
    (hleft : Reads v BinaryOperator.multiply.precedence left leftTree)
    (hright : Reads v (BinaryOperator.multiply.precedence + 1) right rightTree) :
    Reads v BinaryOperator.multiply.precedence (left ++ right)
      fun numbering => BinaryOperator.multiply.combine (leftTree numbering) (rightTree numbering) := by
  refine hleft.join hv (isBinary_impliedTimes number.position) hright ?_
  intro s s₁ s₂ s₃ n n₁ n₂ n₃ _ h₁ h₂ h₃
  have hcall : opensCall number right.head? = false := by
    cases hk : number.kind <;>
      simp_all [Token.isNumber, TokenKind.isNumber, opensCall, TokenKind.isIdent]
  rw [run_append s left right number hlast hcall]
  refine h₁.bind ?_
  have hjoin : joinNext v number right.head? s₁ = s₁.operator v (impliedTimes number.position) := by
    simp [joinNext, hnumber, hnext, opensOperand, hopens]
  rw [hjoin]
  exact h₂.bind h₃

/-! ## Levels -/

theorem Reduces.yields_reduce {tokens : List Token} {tree : NamedTree} (h : Reduces v tokens tree n)
    (start : Nat) : ∃ n' : Names, n.Extends n' ∧ Settled tree n' ∧
      Yields (reduce v start tokens) n (tree n'.number) n' := by
  obtain ⟨n', hn', hsettled, hyields⟩ := h n (Names.Extends.refl n) []
  refine ⟨n', hn', hsettled, ?_⟩
  cases tokens with
  | nil => exact absurd rfl h.ne_nil
  | cons t rest => exact hyields.bind (yields_pure.2 ⟨rfl, rfl⟩)

/-- An expression that fills a level is reduced to its tree. -/
theorem Reads.yields_level {p : Nat} {tokens : List Token} {tree : NamedTree}
    (h : Reads v p tokens tree) {s : State} {start : Nat} (hs : s.callee = none)
    (hcurrent : s.current = { start }) (n : Names) :
    ∃ (s' : State) (n₁ n₂ : Names), n.Extends n₂ ∧ Settled tree n₂ ∧
      s'.outer = s.outer ∧ s'.callee = none ∧ s'.current.start = start ∧
      s'.current.finished ≠ [] ∧ Yields (run v s tokens) n s' n₁ ∧
      Yields (reduce v start s'.current.finished) n₁ (tree n₂.number) n₂ := by
  have hbelow : Below v p s.current.pending := by simp [Below, hcurrent]
  obtain ⟨output, waiting, n₁, hn₁, _, hreduces, hyields⟩ := h s n hs (by simp [hcurrent]) hbelow
  obtain ⟨n₂, hn₂, hsettled, hyields'⟩ := hreduces.yields_reduce start
  have hfinished : (s.extend output waiting).current.finished = output ++ waiting := by
    simp [Level.finished, State.extend, hcurrent]
  refine ⟨s.extend output waiting, n₁, n₂, hn₁.trans hn₂, hsettled, rfl, hs, ?_, ?_, hyields, ?_⟩
  · simp [State.extend, hcurrent]
  · rw [hfinished]
    exact hreduces.ne_nil
  · rw [hfinished]
    exact hyields'

/-- A level that is no list of arguments ends as one operand of the level around it. -/
theorem yields_close {s : State} {base : Level} {outer : List Level} {e : Expr} (position : Nat)
    (houter : s.outer = base :: outer) (hbase : base.isCall = false)
    (hreduce : Yields (reduce v s.current.start s.current.finished) n e n') :
    Yields (s.close v position) n
      { s with current := base.push (.ofExpr e s.current.start), outer } n' := by
  have hinner : Yields (reduceInner v base.isCall s.current) n [.ofExpr e s.current.start] n' := by
    simp only [reduceInner, hbase, Bool.and_false]
    exact hreduce.bind (yields_pure.2 ⟨rfl, rfl⟩)
  simp only [State.close, houter]
  refine hinner.bind ?_
  simp [hbase, Level.push]

theorem step_closing {closing : Token} (h : closing.kind = .rparen) {s : State}
    (hs : s.callee = none) : step v s closing none = s.close v closing.position := by
  rw [step, h, hs]

theorem Reads.parentheses {p q : Nat} {opening closing : Token} {inner : List Token}
    {tree : NamedTree} (hopening : opening.kind = .lparen) (hclosing : closing.kind = .rparen)
    (hne : inner ≠ []) (h : Reads v p inner tree) :
    Reads v q (opening :: inner ++ [closing]) tree := by
  intro s n hs hcall _
  have hopen : s.openLevel opening.position =
      { current := { start := opening.position }, outer := s.current :: s.outer } := by
    simp [State.openLevel, hs]
  obtain ⟨s', n₁, n₂, hn₂, hsettled, houter, hcallee, hstart, _, hyields, hreduce⟩ :=
    h.yields_level (s := s.openLevel opening.position) (by rw [hopen]) (by rw [hopen]) n
  refine ⟨[.ofExpr (tree n₂.number) opening.position], [], n₂, hn₂, by simp,
    reduces_ofExpr hsettled _, ?_⟩
  have hstep : step v s opening (inner ++ [closing]).head? =
      pure (s.openLevel opening.position) := by
    rw [step, hopening]
  rw [List.cons_append, run_cons, hstep, pure_bind,
    run_append_cons hne (by rw [hclosing]; rfl) (by rw [hclosing]; rfl)]
  refine hyields.bind ?_
  rw [run_singleton, step_closing hclosing hcallee]
  rw [← hstart] at hreduce
  have hclose := yields_close closing.position (houter.trans (by rw [hopen])) hcall hreduce
  rw [hstart] at hclose
  have hstate : { s' with
      current := s.current.push (.ofExpr (tree n₂.number) opening.position), outer := s.outer } =
      s.extend [.ofExpr (tree n₂.number) opening.position] [] := by
    simp [State.extend, Level.push, hcallee, hs]
  rwa [hstate] at hclose

end Grammar

end Reckoner
