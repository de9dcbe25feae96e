import Reckoner.Proofs.Expr.Steady
import Reckoner.Proofs.Expr.Written

/-!
The value of the full form.

What has been read has the value of its full form if its doubles and names are read back as they are,
if no sum begins with a sum and no product with a product, and if no whole number without sign is
negated in floating point. Whole doubles are not read back: they are written without a point.
-/
namespace Reckoner

namespace Expr

open Standard (registry)

/-- The token is read back from its text: its name if it is a name, its number if it is a double,
with a minus sign in front or without. -/
def ReadsBack (t : Token) : Prop :=
  match t.kind with
  | .double x => Token.ReadsBack x
  | .ident _ => Token.IsName t.text.toList
  | _ => True

instance : (t : Token) → Decidable (ReadsBack t)
  | ⟨.double x, _, _⟩ => inferInstanceAs (Decidable (Token.ReadsBack x))
  | ⟨.ident _, text, _⟩ => inferInstanceAs (Decidable (Token.IsName text.toList))
  | ⟨.int _, _, _⟩ | ⟨.tree _, _, _⟩ | ⟨.lparen, _, _⟩ | ⟨.rparen, _, _⟩ | ⟨.comma, _, _⟩
  | ⟨.plus, _, _⟩ | ⟨.minus, _, _⟩ | ⟨.negate, _, _⟩ | ⟨.asterisk, _, _⟩ | ⟨.slash, _, _⟩
  | ⟨.circumflex, _, _⟩ | ⟨.equals, _, _⟩ => .isTrue trivial

theorem allows_of_readsBack {tokens : List Token} (h : ∀ t ∈ tokens, ReadsBack t) :
    Leeway.Allows { double := Token.ReadsBack, byName := True } tokens where
  double := by
    intro t ht x hk
    have hback := h t ht
    unfold ReadsBack at hback
    rwa [hk] at hback
  name := by
    intro t ht hident
    have hback := h t ht
    unfold ReadsBack at hback
    cases hk : t.kind with
    | ident name => rwa [hk] at hback
    | _ =>
        rw [hk] at hident
        cases hident
  byName := .inl trivial

/-- A calculator with the standard functions and constants evaluates what it has read without error,
and what it reads from the full form, from one store to the same value and store: if the doubles and
names in the text are read back, and every evaluation on the way is steady. -/
theorem eval_fullText {c : Calculator}
    (hc : c.vocabulary = (Calculator.new { constants := true, functions := true }).vocabulary)
    {text : String} (hparse : (c.parse text).1.error? = none)
    (htext : ∀ t ∈ Token.scan text, ReadsBack t) (s : Store)
    (hsteady : ∀ e₁ s₁, Reaches registry (c.parse text).1 s e₁ s₁ → Steady false e₁ s₁) :
    let e := (c.parse text).1
    let again := ((c.parse text).2.parse ((c.parse text).2.fullText e)).1
    again.eval registry s = e.eval registry s := by
  intro e again
  obtain ⟨-, hagain⟩ := readable_and_readBack_of_parse hc (fun _ hx => hx) hparse
    (allows_of_readsBack htext)
  have hread : again = e.readBack false := hagain false
  rw [hread]
  exact eval_readBack false e s hsteady

/-- The variable and the double, if the expression assigns a negated double to a variable. -/
def negatedDouble? : Expr → Option (String × VariableId × Float)
  | .assign (.var name i) (.call f [.literal (.double x)]) =>
      if f = Standard.negation then some (name, i, x) else none
  | _ => none

theorem eq_assign_of_negatedDouble? {e : Expr} {name : String} {i : VariableId} {x : Float}
    (h : negatedDouble? e = some (name, i, x)) :
    e = .assign (.var name i) (.call Standard.negation [.literal (.double x)]) := by
  unfold negatedDouble? at h
  split at h
  · obtain ⟨rfl, heq⟩ := Option.ite_none_right_eq_some.1 h
    cases heq
    rfl
  · cases h

/-- A negated double, assigned in floating point. -/
theorem eval_fullText_of_assignment :
    let c := Calculator.new { constants := true, functions := true }
    let text := "x = -(2.5)"
    let e := (c.parse text).1
    let again := ((c.parse text).2.parse ((c.parse text).2.fullText e)).1
    (c.parse text).1.error? = none ∧ (∀ t ∈ Token.scan text, ReadsBack t) ∧
      again.eval registry {} = e.eval registry {} := by
  intro c text e again
  have hparse : (c.parse text).1.error? = none := by decide +kernel
  have htext : ∀ t ∈ Token.scan text, ReadsBack t := by decide +kernel
  obtain ⟨⟨name, i, x⟩, hnegated⟩ : ∃ r, negatedDouble? e = some r :=
    Option.isSome_iff_exists.1 (by decide +kernel)
  have htree := eq_assign_of_negatedDouble? hnegated
  refine ⟨hparse, htext, eval_fullText rfl hparse htext {} fun e₁ s₁ h => ?_⟩
  rw [show (c.parse text).1 = _ from htree] at h
  cases h with
  | self => exact ⟨fun _ h => by (cases h), fun ⟨_, _, _, h, _⟩ => by (cases h)⟩
  | assigned h =>
      cases h with
      | self =>
          refine ⟨fun _ h => by (cases h), fun ⟨o, _, _, h, _⟩ => ?_⟩
          exact absurd (Expr.call.inj h).1.symm o.place_ne_negation
      | argument _ h =>
          rcases h with ⟨⟨⟩⟩ | ⟨-, ⟨⟩⟩
          exact ⟨fun _ h => by (cases h), fun ⟨_, _, _, h, _⟩ => by (cases h)⟩

/-- The value of the full form may be another one: a whole double is written like a whole number. -/
theorem eval_fullText_of_whole :
    let c := Calculator.new { constants := true, functions := true }
    let text := "2.0"
    let e := (c.parse text).1
    let again := ((c.parse text).2.parse ((c.parse text).2.fullText e)).1
    (c.parse text).1.error? = none ∧
      ∀ mode, (again.eval registry { mode }).1 ≠ (e.eval registry { mode }).1 := by
  intro c text e again
  have hdouble : ∀ mode, (e.eval registry { mode }).1.rat? = none := fun mode => by
    cases mode <;> decide +kernel
  have hagain : ∀ mode, (again.eval registry { mode }).1.rat? = some 2 := fun mode => by
    cases mode <;> decide +kernel
  refine ⟨by decide +kernel, fun mode heq => ?_⟩
  have hnone := hdouble mode
  rw [← heq, hagain mode] at hnone
  cases hnone

end Expr

end Reckoner
