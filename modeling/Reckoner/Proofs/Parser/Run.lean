import Reckoner.Parser
import Reckoner.Proofs.Names

/-!
Runs of the parser.

A step of parsing that succeeds gives a result and a list of names; `Yields` states both at once,
and its laws take a computation apart at its binds. What a token does depends on the token after it
in one point only, so a run over two pieces of a list is a run over the first piece, the `*` that
may be unwritten between the two, and a run over the second piece.
-/
namespace Reckoner

namespace Parser

variable {α β : Type} {n n' : Names}

/-- The step `m` succeeds with `a` and takes the names from `n` to `n'`. -/
def Yields (m : Parsing α) (n : Names) (a : α) (n' : Names) : Prop :=
  m.run n = .ok a n'

@[simp] theorem yields_pure {a b : α} : Yields (pure a) n b n' ↔ a = b ∧ n = n' := by
  simp [Yields, pure, EStateM.pure, EStateM.run]

@[simp] theorem not_yields_throw {e : ParseError} {a : α} :
    ¬ Yields (throw e) n a n' := by
  intro h
  cases h

theorem yields_bind {m : Parsing α} {f : α → Parsing β} {b : β} :
    Yields (m >>= f) n b n' ↔ ∃ a n₁, Yields m n a n₁ ∧ Yields (f a) n₁ b n' := by
  unfold Yields
  rw [EStateM.run_bind]
  cases m.run n with
  | ok a n₁ =>
      constructor
      · exact fun h => ⟨a, n₁, rfl, h⟩
      · rintro ⟨_, _, h, hf⟩
        cases h
        exact hf
  | error e n₁ =>
      constructor
      · intro h
        cases h
      · rintro ⟨_, _, h, _⟩
        cases h

theorem Yields.bind {m : Parsing α} {f : α → Parsing β} {a : α} {b : β} {n₁ : Names}
    (h : Yields m n a n₁) (hf : Yields (f a) n₁ b n') : Yields (m >>= f) n b n' :=
  yields_bind.2 ⟨a, n₁, h, hf⟩

/-- A step has at most one result. -/
theorem Yields.unique {m : Parsing α} {a b : α} {n₁ n₂ : Names} (h : Yields m n a n₁)
    (h' : Yields m n b n₂) : a = b ∧ n₁ = n₂ := by
  unfold Yields at h h'
  rw [h] at h'
  cases h'
  exact ⟨rfl, rfl⟩

theorem parse_eq_ok_iff {v : Vocabulary} {tokens : List Token} {e : Expr} :
    parse v n tokens = (.ok e, n') ↔ Yields (parseTokens v tokens) n e n' := by
  unfold parse Yields
  cases (parseTokens v tokens).run n <;> simp

variable {v : Vocabulary}

/-- The unwritten `*` after the token `t`, if `next` asks for one. -/
def joinNext (v : Vocabulary) (t : Token) (next : Option Token) (s : State) : Parsing State :=
  if t.isNumber && opensOperand next then s.operator v (impliedTimes t.position) else return s

/-- The token `t` is a name that the parenthesis `next` makes the name of a call. -/
def opensCall (t : Token) (next : Option Token) : Bool :=
  t.kind.isIdent && next.any (·.kind.isOpen)

@[simp] theorem throw_bind {e : ParseError} {f : α → Parsing β} :
    (throw e >>= f) = throw e :=
  rfl

theorem joinNext_of_not_isNumber {t : Token} (h : t.isNumber = false) (next : Option Token) :
    joinNext v t next = pure := by
  funext s
  simp [joinNext, h]

/-- Where no call opens, the token after `t` only matters for the unwritten `*`. -/
theorem step_eq_bind_joinNext (s : State) (t : Token) (next : Option Token)
    (h : opensCall t next = false) :
    step v s t next = step v s t none >>= joinNext v t next := by
  by_cases hnumber : t.isNumber = true
  · have hstep : ∀ next, step v s t next =
        s.callee.elim (joinNext v t next (s.push t)) fun f =>
          throw (.awaitedArguments f.text t.position) := by
      intro next
      cases hk : t.kind <;> simp_all [Token.isNumber, TokenKind.isNumber] <;>
        cases hc : s.callee <;> simp [step, joinNext, Token.isNumber, TokenKind.isNumber, hk, hc]
    rw [hstep, hstep]
    cases s.callee <;> simp [joinNext, opensOperand]
  · have hnumber : t.isNumber = false := by simpa using hnumber
    rw [joinNext_of_not_isNumber hnumber, bind_pure]
    cases hk : t.kind <;> cases hc : s.callee <;>
      simp_all [step, opensCall, Token.isNumber, TokenKind.isNumber, TokenKind.isIdent]

theorem run_cons (s : State) (t : Token) (rest : List Token) :
    run v s (t :: rest) = step v s t rest.head? >>= fun s' => run v s' rest :=
  rfl

@[simp] theorem run_singleton (s : State) (t : Token) : run v s [t] = step v s t none := by
  rw [run_cons]
  exact bind_pure _

/-- A run over two pieces, where the second opens no call of a name at the end of the first. -/
theorem run_append (s : State) (tokens rest : List Token) (last : Token)
    (hlast : tokens.getLast? = some last) (hcall : opensCall last rest.head? = false) :
    run v s (tokens ++ rest) =
      run v s tokens >>= fun s => joinNext v last rest.head? s >>= fun s => run v s rest := by
  induction tokens generalizing s with
  | nil => simp at hlast
  | cons t tokens ih =>
      cases tokens with
      | nil =>
          obtain rfl : t = last := by simpa using hlast
          rw [List.singleton_append, run_cons, step_eq_bind_joinNext s t _ hcall, run_singleton,
            bind_assoc]
      | cons t' tokens =>
          have hlast' : (t' :: tokens).getLast? = some last := by simpa using hlast
          rw [List.cons_append, run_cons, run_cons, bind_assoc]
          congr 1
          funext s'
          exact ih s' hlast'

end Parser

end Reckoner
