import Reckoner.Proofs.Calculator
import Reckoner.Proofs.Parser.Errors
import Reckoner.Proofs.Parser.Trees

/-!
The errors that a calculator finds in a text.

The tree of a text is an error only if the parser reports one: no text stands for an error. So the
error has a position in the text, and its kind is one of those that the parser reports.
-/
namespace Reckoner

namespace Grammar

open Reckoner.Parser

variable {v : Vocabulary}

theorem error?_callTree (id : FunctionId) (args : List Expr) : (callTree id args).error? = none := by
  unfold callTree
  split
  · split <;> rfl
  · rfl

theorem error?_combine (o : BinaryOperator) (left right : Expr) :
    (o.combine left right).error? = none := by
  unfold BinaryOperator.combine
  split
  · rfl
  · split
    · split <;> rfl
    · rfl

/-- Operands that are no trees already stand for no errors. -/
theorem error?_of_operand {n n' : Names} {t : Token} {e : Expr} (ht : ∀ e, t.kind ≠ .tree e)
    (h : Yields (operand v t) n e n') : e.error? = none := by
  cases stands_of_yields h with
  | tree hk => exact absurd hk (ht e)
  | _ => rfl

theorem treeProperty_noError :
    TreeProperty v (fun t => ∀ e, t.kind ≠ .tree e) (fun _ => True) fun _ e => e.error? = none where
  mono := fun _ h => h
  operand := error?_of_operand
  binary := fun o _ _ _ _ => error?_combine o _ _
  negate := fun _ => rfl
  call := fun _ _ _ _ => error?_callTree _ _

/-- What a text is parsed to without an error is none. -/
theorem error?_of_parse (hv : v.functions.HasOperators) {n n' : Names} {text : String} {e : Expr}
    (h : Parser.parse v n (Token.scan text) = (.ok e, n')) : e.error? = none :=
  treeProperty_noError.of_parse hv (fun _ ht => Token.spelled_of_mem_scan ht)
    (fun _ _ hsuffix _ _ =>
      (Token.spelled_of_mem_scan (hsuffix.subset List.mem_cons_self)).kind_ne_tree)
    (fun _ _ _ _ => trivial) h

end Grammar

namespace Calculator

variable {c : Calculator} {text : String} {e : CalcError}

/-- An error at the root of a tree is the one that the parser reports. -/
theorem exists_parse_eq_error (hc : c.registry.HasOperators)
    (h : (c.parse text).1.error? = some e) :
    ∃ err n, Parser.parse c.vocabulary c.names (Token.scan text) = (.error err, n) ∧
      err.toCalcError = e := by
  rcases hparse : Parser.parse c.vocabulary c.names (Token.scan text) with ⟨⟨err⟩ | ⟨tree⟩, n⟩
  · refine ⟨err, n, rfl, ?_⟩
    simpa [parse, Parser.read, hparse, Expr.ofError, Expr.error?, Value.error?] using h
  · rw [parse_of_eq_ok hparse, Grammar.error?_of_parse hc hparse] at h
    cases h

/-- Every parse error is located. It is reported at the beginning of the text or at one of its
tokens, and it is of one of the five kinds that the parser knows. -/
theorem parse_error_located (hc : c.registry.HasOperators)
    (h : (c.parse text).1.error? = some e) :
    (∃ p, e.position = some p ∧ (p = 0 ∨ ∃ t ∈ Token.scan text, t.position = p)) ∧
      e.kind ∈ [ErrorKind.parenthesisMismatch, .noValidToken, .noTokens, .wrongArgumentCount,
        .unknownFunction] := by
  obtain ⟨err, n, hparse, rfl⟩ := exists_parse_eq_error hc h
  have hreported := Grammar.reported_of_parse hc (fun _ ht => Token.spelled_of_mem_scan ht) hparse
  exact ⟨hreported.located.2, hreported.kind_mem⟩

/-- The name of an unknown function stands behind an operator. -/
theorem parse_error_located_foo :
    let c := new { functions := true }
    let e : CalcError := ⟨.unknownFunction, "Unknown function foo", some 4⟩
    c.registry.HasOperators ∧ (c.parse "2 * foo(1)").1.error? = some e ∧
      (∃ p, e.position = some p ∧ (p = 0 ∨ ∃ t ∈ Token.scan "2 * foo(1)", t.position = p)) ∧
      e.kind ∈ [ErrorKind.parenthesisMismatch, .noValidToken, .noTokens, .wrongArgumentCount,
        .unknownFunction] := by
  intro c e
  have hc : c.registry.HasOperators := hasOperators_new _
  have herror : (c.parse "2 * foo(1)").1.error? = some e := by decide +kernel
  exact ⟨hc, herror, parse_error_located hc herror⟩

end Calculator

end Reckoner
