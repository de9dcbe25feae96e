import Reckoner.Proofs.Parser.Calls

/-!
Where parse errors are reported.

Every error is reported at the position of a token, or at the beginning of a level, which is the
position of a token too or zero. The invariant is that nothing in the parser's state has any other
position. With the fundamental operators every token of a text stands for something, and no function
refuses its arguments, since their number has been checked before.
-/
namespace Reckoner

namespace Parser

variable {α β : Type} {n n' : Names} {err : ParseError}

/-- The step `m` fails with the error. -/
def Raises (m : Parsing α) (n : Names) (err : ParseError) : Prop :=
  ∃ n', m.run n = .error err n'

@[simp] theorem not_raises_pure {a : α} : ¬ Raises (pure a) n err := by
  simp [Raises, pure, EStateM.pure, EStateM.run]

@[simp] theorem raises_throw {err' : ParseError} :
    Raises (throw err' : Parsing α) n err ↔ err' = err := by
  constructor
  · rintro ⟨_, h⟩
    cases h
    rfl
  · rintro rfl
    exact ⟨n, rfl⟩

theorem raises_bind {m : Parsing α} {f : α → Parsing β} :
    Raises (m >>= f) n err ↔ Raises m n err ∨ ∃ a n₁, Yields m n a n₁ ∧ Raises (f a) n₁ err := by
  unfold Raises Yields
  rw [EStateM.run_bind]
  cases m.run n with
  | ok a n₁ =>
      constructor
      · exact fun h => .inr ⟨a, n₁, rfl, h⟩
      · rintro (⟨_, h⟩ | ⟨_, _, h, hf⟩)
        · cases h
        · cases h
          exact hf
  | error e n₁ =>
      constructor
      · rintro ⟨n', h⟩
        cases h
        exact .inl ⟨n₁, rfl⟩
      · rintro (⟨n', h⟩ | ⟨_, _, h, _⟩)
        · cases h
          exact ⟨n₁, rfl⟩
        · cases h

theorem parse_eq_error_iff {v : Vocabulary} {tokens : List Token} :
    (∃ n', parse v n tokens = (.error err, n')) ↔ Raises (parseTokens v tokens) n err := by
  unfold parse Raises
  cases (parseTokens v tokens).run n <;> simp

end Parser

namespace Grammar

open Reckoner.Parser

variable {v : Vocabulary} {n n' : Names} {err : ParseError} {S : Nat → Prop}

/-- The parser found the error itself, and reports it at one of the positions. -/
def Located (S : Nat → Prop) (err : ParseError) : Prop :=
  (∀ e, err ≠ .refused e) ∧ ∃ p, err.toCalcError.position = some p ∧ S p

/-- The parser found the error itself, reports it at one of the positions, and knew what every token
stands for. -/
structure Reported (S : Nat → Prop) (err : ParseError) : Prop where
  located : Located S err
  supported : ∀ text p, err ≠ .unsupported text p

/-- The kinds of the errors that the parser reports. -/
theorem Reported.kind_mem (h : Reported S err) :
    err.toCalcError.kind ∈ [ErrorKind.parenthesisMismatch, .noValidToken, .noTokens,
      .wrongArgumentCount, .unknownFunction] := by
  cases err with
  | refused e => exact absurd rfl (h.located.1 e)
  | unsupported text p => exact absurd rfl (h.supported text p)
  | _ => simp [ParseError.toCalcError]

/-! ## Reduction -/

theorem reported_operand {t : Token} (ht : S t.position) (h : Raises (operand v t) n err) :
    Reported S err := by
  unfold operand at h
  split at h
  · exact absurd h not_raises_pure
  · exact absurd h not_raises_pure
  · exact absurd h not_raises_pure
  · split at h
    · exact absurd h not_raises_pure
    · obtain ⟨n', h⟩ := h
      cases h
  · obtain rfl := raises_throw.1 h
    exact ⟨⟨by simp, t.position, rfl, ht⟩, by simp⟩

/-- An operator is only applied to as many operands as it accepts. -/
theorem reported_apply (hv : v.functions.HasOperators) {f : NamedFunction} {id : FunctionId}
    {t : Token} {stack : List Expr} (hget : v.functions.get? id = some f) (ht : S t.position)
    (h : apply f id t stack = .error err) : Reported S err := by
  have hmissing : Reported S (.missingOperand t.text t.position) :=
    ⟨⟨by simp, t.position, rfl, ht⟩, by simp⟩
  have hbuild : ∀ args : List Expr, f.arity.accepts args.length = true →
      build f id args = .ok (callTree id args) := fun _ hcount => build_eq_callTree hv hget hcount
  unfold apply at h
  split at h
  · cases h
  · split at h
    · split at h
      · next htwo =>
          rw [hbuild [_, _] htwo] at h
          cases h
      · split at h
        · next hone =>
            have hone : f.arity.accepts 1 = true := by simp_all
            rw [hbuild [_] hone] at h
            cases h
        · cases h
          exact hmissing
    · split at h
      · next hone =>
          have hone : f.arity.accepts 1 = true := by simp_all
          rw [hbuild [_] hone] at h
          cases h
      · cases h
        exact hmissing
    · cases h
      exact hmissing

theorem get?_of_operator? {t : Token} {id : FunctionId} {f : NamedFunction}
    (h : operator? v t = some (id, f)) : v.functions.get? id = some f := by
  unfold operator? at h
  split at h
  · obtain ⟨g, hget, hpair⟩ := Option.map_eq_some_iff.1 h
    cases hpair
    exact hget
  · cases h

theorem reported_reduceToken (hv : v.functions.HasOperators) {t : Token} {stack : List Expr}
    (ht : S t.position) (h : Raises (reduceToken v stack t) n err) : Reported S err := by
  unfold reduceToken at h
  split at h
  · next hoperator =>
      split at h
      · exact absurd h not_raises_pure
      · next happly =>
          obtain rfl := raises_throw.1 h
          exact reported_apply hv (get?_of_operator? hoperator) ht happly
  · rcases raises_bind.1 h with h | ⟨_, _, _, h⟩
    · exact reported_operand ht h
    · exact absurd h not_raises_pure

theorem reported_foldlM (hv : v.functions.HasOperators) {tokens : List Token} {stack : List Expr}
    (htokens : ∀ t ∈ tokens, S t.position) (h : Raises (tokens.foldlM (reduceToken v) stack) n err) :
    Reported S err := by
  induction tokens generalizing stack n with
  | nil => exact absurd h not_raises_pure
  | cons t rest ih =>
      rw [List.foldlM_cons] at h
      rcases raises_bind.1 h with h | ⟨stack', n₁, -, h⟩
      · exact reported_reduceToken hv (htokens t List.mem_cons_self) h
      · exact ih (fun t ht => htokens t (List.mem_cons_of_mem _ ht)) h

theorem reported_reduce (hv : v.functions.HasOperators) {tokens : List Token} {start : Nat}
    (htokens : ∀ t ∈ tokens, S t.position) (hstart : S start)
    (h : Raises (reduce v start tokens) n err) : Reported S err := by
  unfold reduce at h
  split at h
  · obtain rfl := raises_throw.1 h
    exact ⟨⟨by simp, start, rfl, hstart⟩, by simp⟩
  · rcases raises_bind.1 h with h | ⟨stack, n₁, -, h⟩
    · exact reported_foldlM hv htokens h
    · split at h
      · exact absurd h not_raises_pure
      · obtain rfl := raises_throw.1 h
        exact ⟨⟨by simp, start, rfl, hstart⟩, by simp⟩

/-! ## Levels -/

/-- The level begins at one of the positions, and so do its tokens. -/
structure Placed (S : Nat → Prop) (l : Level) : Prop where
  start : S l.start
  tokens : ∀ t ∈ l.finished, S t.position

theorem placed_empty {start : Nat} (h : S start) : Placed S { start } :=
  ⟨h, by simp [Level.finished]⟩

theorem Placed.add {l l' : Level} {t : Token} (h : Placed S l) (hstart : l'.start = l.start)
    (hperm : l'.finished.Perm (t :: l.finished)) (ht : S t.position) : Placed S l' where
  start := hstart ▸ h.start
  tokens := Level.forall_mem_of_perm h.tokens hperm ht

theorem Placed.push {l : Level} {t : Token} (h : Placed S l) (ht : S t.position) :
    Placed S (l.push t) :=
  h.add rfl (l.perm_push t) ht

theorem Placed.mem_output {l : Level} (h : Placed S l) : ∀ t ∈ l.output, S t.position :=
  fun t ht => h.tokens t (List.mem_append_left _ ht)

theorem Placed.mem_pending {l : Level} (h : Placed S l) : ∀ t ∈ l.pending, S t.position :=
  fun t ht => h.tokens t (List.mem_append_right _ ht)

theorem reported_argumentsOf {tokens : List Token} (htokens : ∀ t ∈ tokens, S t.position)
    (h : argumentsOf tokens = .error err) : Reported S err := by
  induction tokens with
  | nil => cases h
  | cons t rest ih =>
      rw [argumentsOf] at h
      split at h
      · cases hrest : argumentsOf rest with
        | ok args =>
            rw [hrest] at h
            cases h
        | error err' =>
            rw [hrest] at h
            cases h
            exact ih (fun t ht => htokens t (List.mem_cons_of_mem _ ht)) hrest
      · cases h
        exact ⟨⟨by simp, t.position, rfl, htokens t List.mem_cons_self⟩, by simp⟩

theorem reported_reduceCall (hv : v.functions.HasOperators) {l : Level} (hl : Placed S l)
    (h : reduceCall v l = .error err) : Reported S err := by
  unfold reduceCall at h
  split at h
  · cases h
    exact ⟨⟨by simp, l.start, rfl, hl.start⟩, by simp⟩
  · next name hname =>
      have hposition : S name.position := hl.mem_pending name (List.mem_of_getLast? hname)
      simp only at h
      split at h
      · cases h
        exact ⟨⟨by simp, name.position, rfl, hposition⟩, by simp⟩
      · next id f hfound =>
          obtain ⟨id', hfind, hget⟩ := Option.bind_eq_some_iff.1 hfound
          obtain ⟨f', hget, hpair⟩ := Option.map_eq_some_iff.1 hget
          cases hpair
          split at h
          · next hargs =>
              cases h
              exact reported_argumentsOf hl.mem_output hargs
          · split at h
            · next hcount =>
                rw [build_eq_callTree hv hget hcount] at h
                cases h
            · cases h
              exact ⟨⟨by simp, name.position, rfl, hposition⟩, by simp⟩

theorem reported_reduceInner (hv : v.functions.HasOperators) {l : Level} {inCall : Bool}
    (hl : Placed S l) (h : Raises (reduceInner v inCall l) n err) : Reported S err := by
  unfold reduceInner at h
  split at h
  · exact absurd h not_raises_pure
  · rcases raises_bind.1 h with h | ⟨_, _, _, h⟩
    · exact reported_reduce hv hl.tokens hl.start h
    · exact absurd h not_raises_pure

/-! ## Steps -/

/-- All levels are placed, and so is a name whose arguments are awaited. -/
structure PlacedState (S : Nat → Prop) (s : State) : Prop where
  current : Placed S s.current
  outer : ∀ l ∈ s.outer, Placed S l
  callee : ∀ f, s.callee = some f → S f.position

theorem PlacedState.step {s s' : State} {t : Token} {next : Option Token} (ht : S t.position)
    (h : PlacedState S s) (hstep : Step v t next s n s' n') : PlacedState S s' := by
  have houterMem := h.outer
  cases hstep with
  | openParenthesis _ _ =>
      exact ⟨placed_empty ht, List.forall_mem_cons.2 ⟨h.current, h.outer⟩, by simp⟩
  | @openCall f _ hs =>
      refine ⟨placed_empty ht, List.forall_mem_cons.2 ⟨⟨ht, ?_⟩, List.forall_mem_cons.2
        ⟨h.current, h.outer⟩⟩, by simp⟩
      simpa [Level.finished] using h.callee f hs
  | comma _ _ houter _ _ =>
      rw [houter, List.forall_mem_cons] at houterMem
      exact ⟨placed_empty ht,
        List.forall_mem_cons.2 ⟨houterMem.1.push h.current.start, houterMem.2⟩, by simp⟩
  | closeParenthesis _ _ houter _ _ =>
      rw [houter, List.forall_mem_cons] at houterMem
      exact ⟨houterMem.1.push h.current.start, houterMem.2, by simp⟩
  | closeCall _ _ houter _ _ _ =>
      rw [houter, List.forall_mem_cons, List.forall_mem_cons] at houterMem
      exact ⟨houterMem.2.1.push houterMem.1.start, houterMem.2.2, by simp⟩
  | callee _ _ _ =>
      refine ⟨h.current, h.outer, fun f hf => ?_⟩
      obtain rfl : t = f := by simpa using hf
      exact ht
  | operand _ _ _ _ => exact ⟨h.current.push ht, h.outer, h.callee⟩
  | factor _ _ _ _ =>
      exact ⟨(h.current.push ht).add rfl ((s.current.push t).perm_pushOperator _ _) ht, h.outer,
        h.callee⟩
  | operator _ _ _ =>
      exact ⟨h.current.add rfl (s.current.perm_pushOperator _ _) ht, h.outer, h.callee⟩

/-- Every operator is registered. -/
theorem not_raises_operator (hv : v.functions.HasOperators) {s : State} {t : Token}
    (ht : IsOperation t) : ¬ Raises (s.operator v t) n err := by
  obtain ⟨id, f, hoperator⟩ : ∃ id f, operator? v t = some (id, f) := by
    rcases ht with hnegate | ⟨o, hbinary⟩
    · exact ⟨_, _, operator?_of_negate hv hnegate⟩
    · exact ⟨_, _, operator?_of_isBinary hv hbinary⟩
  simp only [State.operator, hoperator]
  exact not_raises_pure

theorem reported_nextArgument (hv : v.functions.HasOperators) {s : State} {position : Nat}
    (hs : PlacedState S s) (hposition : S position)
    (h : Raises (s.nextArgument v position) n err) : Reported S err := by
  have hcomma : Reported S (.unexpectedComma position) :=
    ⟨⟨by simp, position, rfl, hposition⟩, by simp⟩
  unfold State.nextArgument at h
  split at h
  · split at h
    · rcases raises_bind.1 h with h | ⟨_, _, _, h⟩
      · exact reported_reduce hv hs.current.tokens hs.current.start h
      · exact absurd h not_raises_pure
    · obtain rfl := raises_throw.1 h
      exact hcomma
  · obtain rfl := raises_throw.1 h
    exact hcomma

theorem reported_close (hv : v.functions.HasOperators) {s : State} {position : Nat}
    (hs : PlacedState S s) (hposition : S position) (h : Raises (s.close v position) n err) :
    Reported S err := by
  have hextra : Reported S (.extraClose position) :=
    ⟨⟨by simp, position, rfl, hposition⟩, by simp⟩
  have houter := hs.outer
  unfold State.close at h
  split at h
  · obtain rfl := raises_throw.1 h
    exact hextra
  · next enclosing outer heq =>
      rw [heq, List.forall_mem_cons] at houter
      rcases raises_bind.1 h with h | ⟨inner, n₁, hinner, h⟩
      · exact reported_reduceInner hv hs.current h
      · have hlevel : Placed S { enclosing with output := enclosing.output ++ inner } := by
          rcases yields_reduceInner hinner with ⟨-, -, rfl, -⟩ | ⟨e, -, rfl⟩
          · simpa using houter.1
          · exact houter.1.push hs.current.start
        simp only at h
        split at h
        · split at h
          · next hcall =>
              obtain rfl := raises_throw.1 h
              exact reported_reduceCall hv hlevel hcall
          · split at h
            · obtain rfl := raises_throw.1 h
              exact hextra
            · exact absurd h not_raises_pure
        · exact absurd h not_raises_pure

theorem reported_step (hv : v.functions.HasOperators) {s : State} {t : Token} {next : Option Token}
    (hs : PlacedState S s) (ht : S t.position) (hspelled : t.Spelled)
    (h : Raises (step v s t next) n err) : Reported S err := by
  have htimes : ∀ s : State, ¬ Raises (s.operator v (impliedTimes t.position)) n err :=
    fun s => not_raises_operator hv (.inr ⟨.multiply, isBinary_impliedTimes _⟩)
  unfold step at h
  split at h
  · exact absurd h not_raises_pure
  · obtain rfl := raises_throw.1 h
    exact ⟨⟨by simp, t.position, rfl, ht⟩, by simp⟩
  · exact reported_nextArgument hv hs ht h
  · exact reported_close hv hs ht h
  · split at h
    · split at h
      · exact absurd h not_raises_pure
      · obtain rfl := raises_throw.1 h
        exact ⟨⟨by simp, t.position, rfl, ht⟩, by simp⟩
    · exact absurd h not_raises_pure
  · split at h
    · exact absurd h (htimes _)
    · exact absurd h not_raises_pure
  · split at h
    · exact absurd h (htimes _)
    · exact absurd h not_raises_pure
  · exact absurd h not_raises_pure
  · have hoperator : t.kind.isOperator = true := by
      cases hk : t.kind <;> simp_all [TokenKind.isOperator]
    exact absurd h (not_raises_operator hv (isOperation_of_spelled hspelled hoperator))

theorem reported_run (hv : v.functions.HasOperators) {tokens : List Token} {s : State}
    (hs : PlacedState S s) (htokens : ∀ t ∈ tokens, S t.position)
    (hspelled : ∀ t ∈ tokens, t.Spelled) (h : Raises (run v s tokens) n err) : Reported S err := by
  induction tokens generalizing s n with
  | nil => exact absurd h not_raises_pure
  | cons t rest ih =>
      have ht := htokens t List.mem_cons_self
      rw [run_cons] at h
      rcases raises_bind.1 h with h | ⟨s', n₁, hstep, h⟩
      · exact reported_step hv hs ht (hspelled t List.mem_cons_self) h
      · exact ih (hs.step ht (step_of_yields hstep))
          (fun t ht => htokens t (List.mem_cons_of_mem _ ht))
          (fun t ht => hspelled t (List.mem_cons_of_mem _ ht)) h

/-- An error of parsing is reported at the beginning or at the position of a token. -/
theorem reported_of_parse (hv : v.functions.HasOperators) {tokens : List Token}
    (hspelled : ∀ t ∈ tokens, t.Spelled) (h : Parser.parse v n tokens = (.error err, n')) :
    Reported (fun p => p = 0 ∨ ∃ t ∈ tokens, t.position = p) err := by
  have hraises := parse_eq_error_iff.1 ⟨n', h⟩
  have htokens : ∀ t ∈ tokens, t.position = 0 ∨ ∃ u ∈ tokens, u.position = t.position :=
    fun t ht => .inr ⟨t, ht, rfl⟩
  unfold parseTokens at hraises
  split at hraises
  · obtain rfl := raises_throw.1 hraises
    exact ⟨⟨by simp, 0, rfl, .inl rfl⟩, by simp⟩
  · have hstart : PlacedState (fun p => p = 0 ∨ ∃ t ∈ tokens, t.position = p) {} :=
      ⟨placed_empty (.inl rfl), by simp, by simp⟩
    rcases raises_bind.1 hraises with hrun | ⟨s, n₁, hrun, hlast⟩
    · exact reported_run hv hstart htokens hspelled hrun
    · have hfinal := run_invariant (I := fun s _ => PlacedState
        (fun p => p = 0 ∨ ∃ t ∈ tokens, t.position = p) s)
        (fun hsuffix hs hstep => hs.step (htokens _ (hsuffix.subset List.mem_cons_self)) hstep)
        hstart hrun
      split at hlast
      · exact reported_reduce hv hfinal.current.tokens hfinal.current.start hlast
      · obtain rfl := raises_throw.1 hlast
        exact ⟨⟨by simp, s.current.start, rfl, hfinal.current.start⟩, by simp⟩

end Grammar

end Reckoner
