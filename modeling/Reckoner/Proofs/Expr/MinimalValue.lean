import Reckoner.Proofs.Expr.Steady
import Reckoner.Proofs.Expr.Written

/-!
The value of the minimal form.

In the exact mode the minimal form of what has been read has the same value, unless a sum or product
whose operands lose their parentheses overflows in one grouping only. Then one of the two values on
the way is a double. An exact value is never turned into another one or into an error.
-/
namespace Reckoner

namespace Expr

open Standard (registry)

/-- A text without doubles and of any names and calls. -/
theorem allows_of_no_double {text : String}
    (h : ∀ t ∈ Token.scan text, t.kind.isDouble = false) :
    Leeway.Allows { byName := True } (Token.scan text) where
  double := by
    intro t ht x hk
    have hdouble := h t ht
    rw [hk] at hdouble
    cases hdouble
  name := fun t ht hident => (Token.isName_or_double ht hident).resolve_right fun hother => by
    obtain ⟨-, u, hu, hdouble⟩ := hother
    exact absurd (hdouble.symm.trans (h u hu)) (by decide)
  byName := .inl trivial

/-- The numbers in what has been read are in canonical form. -/
theorem wellFormed_of_parse {c : Calculator}
    (hc : c.vocabulary = (Calculator.new { constants := true, functions := true }).vocabulary)
    {text : String} (hparse : (c.parse text).1.error? = none) : (c.parse text).1.WellFormed := by
  have hfunctions : c.vocabulary.functions = registry := by
    rw [hc]
    exact Calculator.registry_new _
  have hconstants : ∀ name constant, c.vocabulary.constant? name = some constant →
      constant.value.WellFormed := by
    intro name constant h
    rw [hc] at h
    exact (Calculator.isStandard_of_constant? h).wellFormed
  rcases wellFormed_of_read (hfunctions ▸ Standard.hasOperators_registry) hconstants c.names text with
    he | ⟨err, he, -⟩
  · exact he
  · rw [show (c.parse text).1 = .ofError err from he] at hparse
    cases hparse

/-- Without doubles, nothing that is reached negates or regroups but in the exact mode. -/
theorem steady_of_reaches {e e₁ : Expr} {s s₁ : Store} (he : e.WellFormed) (hmode : s.mode = .exact)
    (hs : s.WellFormed) (h : Reaches registry e s e₁ s₁)
    (hsum : Regrouped true e₁ → (∀ x, (e₁.eval registry s₁).1 ≠ .double x) ∧
      ∀ x, ((e₁.readBack true).eval registry s₁).1 ≠ .double x) : Steady true e₁ s₁ := by
  obtain ⟨he₁, hmode₁, hs₁⟩ := h.wellFormed he hmode hs
  exact ⟨fun _ _ _ => hmode₁, fun hregrouped => ⟨hmode₁, hs₁, he₁, hsum hregrouped⟩⟩

/-- A calculator with the standard functions and constants evaluates what it has read without error,
and what it reads from the minimal form, from one store in the exact mode. If one value is exact
then the other is the same one or a double. And the evaluations are the same, value and store, if no
sum or product that loses its grouping is a double, with its grouping or without. -/
theorem eval_minimalText {c : Calculator}
    (hc : c.vocabulary = (Calculator.new { constants := true, functions := true }).vocabulary)
    {text : String} (hparse : (c.parse text).1.error? = none)
    (htext : ∀ t ∈ Token.scan text, t.kind.isDouble = false) (s : Store) (hmode : s.mode = .exact)
    (hs : s.WellFormed) :
    let e := (c.parse text).1
    let again := ((c.parse text).2.parse ((c.parse text).2.minimalText e)).1
    (∀ q, (e.eval registry s).1.rat? = some q →
      (again.eval registry s).1 = (e.eval registry s).1 ∨
        ∃ x, (again.eval registry s).1 = .double x) ∧
    (∀ q, (again.eval registry s).1.rat? = some q →
      (e.eval registry s).1 = (again.eval registry s).1 ∨ ∃ x, (e.eval registry s).1 = .double x) ∧
    ((∀ e₁ s₁, Reaches registry e s e₁ s₁ → Regrouped true e₁ →
        (∀ x, (e₁.eval registry s₁).1 ≠ .double x) ∧
          ∀ x, ((e₁.readBack true).eval registry s₁).1 ≠ .double x) →
      again.eval registry s = e.eval registry s) := by
  intro e again
  have he : e.WellFormed := wellFormed_of_parse hc hparse
  obtain ⟨-, hagain⟩ := readable_and_readBack_of_parse hc (fun _ (hx : False) => hx.elim) hparse
    (allows_of_no_double htext)
  have hread : again = e.readBack true := hagain true
  rw [hread]
  refine ⟨fun q hq => eval_readBack_of_exact true he hmode hs hq,
    fun q hq => eval_of_readBack_exact true he hmode hs hq, fun hsums => ?_⟩
  exact eval_readBack true e s fun e₁ s₁ h => steady_of_reaches he hmode hs h (hsums e₁ s₁ h)

/-- The numbers, if the expression is the sum of a whole number and the sum of two others. -/
def nestedSum? : Expr → Option (BitVec 64 × BitVec 64 × BitVec 64)
  | .call 0 [.literal (.int i), .call 0 [.literal (.int j), .literal (.int k)]] => some (i, j, k)
  | _ => none

theorem eq_call_of_nestedSum? {e : Expr} {i j k : BitVec 64} (h : nestedSum? e = some (i, j, k)) :
    e = .call 0 [.literal (.int i), .call 0 [.literal (.int j), .literal (.int k)]] := by
  unfold nestedSum? at h
  split at h
  · cases h
    rfl
  · cases h

/-- A sum that begins with a number and goes on with a sum in parentheses. -/
theorem eval_minimalText_of_sum :
    let c := Calculator.new { constants := true, functions := true }
    let text := "1 + (2 + 3)"
    let s : Store := { mode := .exact }
    let e := (c.parse text).1
    let again := ((c.parse text).2.parse ((c.parse text).2.minimalText e)).1
    (c.parse text).1.error? = none ∧ (∀ t ∈ Token.scan text, t.kind.isDouble = false) ∧
      s.WellFormed ∧ again.eval registry s = e.eval registry s := by
  intro c text s e again
  have hparse : (c.parse text).1.error? = none := by decide +kernel
  have htext : ∀ t ∈ Token.scan text, t.kind.isDouble = false := by decide +kernel
  have hs : s.WellFormed := fun _ _ h => by cases h
  have htree := eq_call_of_nestedSum? (by decide +kernel : nestedSum? e = some (1, 2, 3))
  refine ⟨hparse, htext, hs, (eval_minimalText rfl hparse htext s rfl hs).2.2 fun e₁ s₁ h hr => ?_⟩
  rw [show (c.parse text).1 = _ from htree] at h
  have hliteral : ∀ v : Value, ¬ Regrouped true (.literal v) := by
    rintro v ⟨o, args, -, hcall, -⟩
    cases hcall
  -- Only the whole sum is regrouped: the inner one has no sum among its operands.
  have hinner : ¬ Regrouped true (.call 0 [.literal (.int 2), .literal (.int 3)]) := by
    rintro ⟨o, args, -, hcall, hne⟩
    obtain ⟨hplace, rfl⟩ := Expr.call.inj hcall
    rw [← hplace] at hne
    exact hne rfl
  have hexact : ∀ v : Value, v.rat? = some 6 → ∀ x, v ≠ .double x := by
    rintro v hv x rfl
    cases hv
  cases h with
  | self => exact ⟨hexact _ (by decide +kernel), hexact _ (by decide +kernel)⟩
  | argument _ h =>
      rcases h with ⟨⟨⟩⟩ | ⟨-, h⟩
      · exact absurd hr (hliteral _)
      rcases h with h | ⟨-, ⟨⟩⟩
      cases h with
      | self => exact absurd hr hinner
      | argument _ h =>
          rcases h with ⟨⟨⟩⟩ | ⟨-, ⟨⟨⟩⟩ | ⟨-, ⟨⟩⟩⟩
          · exact absurd hr (hliteral _)
          · exact absurd hr (hliteral _)

/-- The value of the minimal form may be another one: `1 + -1` is exact in its parentheses, but
without them the sum overflows at its second operand. -/
theorem eval_minimalText_of_overflow :
    let c := Calculator.new { constants := true, functions := true }
    let text := "9223372036854775807 + (1 + -1)"
    let s : Store := { mode := .exact }
    let e := (c.parse text).1
    let again := ((c.parse text).2.parse ((c.parse text).2.minimalText e)).1
    (c.parse text).1.error? = none ∧ (∀ t ∈ Token.scan text, t.kind.isDouble = false) ∧
      (e.eval registry s).1.rat? = some 9223372036854775807 ∧
      (again.eval registry s).1 ≠ (e.eval registry s).1 := by
  intro c text s e again
  have hexact : (e.eval registry s).1.rat? = some 9223372036854775807 := by decide +kernel
  have hagain : (again.eval registry s).1.rat? = none := by decide +kernel
  refine ⟨by decide +kernel, by decide +kernel, hexact, fun heq => ?_⟩
  rw [heq, hexact] at hagain
  cases hagain

end Expr

end Reckoner
