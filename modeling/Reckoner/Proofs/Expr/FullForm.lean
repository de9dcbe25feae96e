import Reckoner.Proofs.Expr.Written

/-!
Reading back the full form.

Nothing but negations of numbers without sign is changed by the full form of a readable tree without
leeway: no sum begins with a sum there, so none takes up the operands of another. So what has been
read can be written in full and read again.
-/
namespace Reckoner

namespace Expr

open Grammar

variable {v : Vocabulary} {n m : Names} {e : Expr}

theorem foldAllNegations_eq_map (es : List Expr) : foldAllNegations es = es.map foldNegations := by
  induction es with
  | nil => rfl
  | cons e rest ih => rw [foldAllNegations, ih, List.map_cons]

/-- A call that is no negation of a number is folded in its arguments only. -/
theorem foldNegations_call {id : FunctionId} {args : List Expr} (h : opposite? id args = none) :
    (call id args).foldNegations = .call id (args.map foldNegations) := by
  rw [foldNegations, h, foldAllNegations_eq_map]

theorem opposite?_of_ne {id : FunctionId} (h : id ≠ Standard.negation) (args : List Expr) :
    opposite? id args = none := by
  unfold opposite?
  split
  · rw [if_neg fun hn => h hn.1]
  · rfl

theorem signed?_of_readable {id : FunctionId} {args : List Expr}
    (h : ∀ e ∈ args, Readable {} v n e) :
    signed? id args = (opposite? id args).map Value.int := by
  unfold signed? opposite?
  split
  next x =>
    cases h _ (List.mem_singleton_self _) with
    | int k =>
        by_cases hk : id = Standard.negation ∧ 0 ≤ k.toInt
        · simp [hk, Value.isUnsigned, Value.opposite]
        · have hnot : ¬ (id = Standard.negation ∧ (Value.int k).isUnsigned = true) := by
            simpa [Value.isUnsigned] using hk
          simp [hk, hnot]
    | double hx => exact hx.elim
  next hne =>
    split
    next k => exact absurd rfl (hne _)
    next => rfl

/-- The operands in the full form are read one by one. -/
theorem spread_false (id : FunctionId) (args : List Expr) :
    spread false id args = args.map (readBack false) := by
  induction args with
  | nil => rw [spread_nil, List.map_nil]
  | cons e rest ih =>
      have hone : operands false id e = [e.readBack false] :=
        operands_of_ne fun hminimal => by cases hminimal
      rw [spread_cons, ih, hone, List.singleton_append, List.map_cons]

/-- The full form of a tree without leeway loses nothing but negations of numbers without sign. -/
theorem readBack_of_readable (hv : v.functions.HasOperators) (h : Readable {} v n e) :
    e.readBack false = e.foldNegations := by
  induction h with
  | double hx => exact hx.elim
  | negate he ih =>
      rename_i e
      rw [readBack, foldNegations, signed?_of_readable (by simpa using he)]
      cases opposite? Standard.negation [e] with
      | some k => rfl
      | none => simp [not_flattens_negation, readBackAll, foldAllNegations, ih]
  | @operator o first second others ho hfirst _ _ ih =>
      rw [foldNegations_call (opposite?_of_ne o.place_ne_negation _), ← List.map_congr_left ih]
      cases hflattens : o.flattens with
      | true =>
          rw [readBack_of_first hflattens (hfirst.resolve_left id hflattens), spread_false]
      | false =>
          exact readBack_call (signed?_of_ne o.place_ne_negation _)
            (.inl ((flattens_place o).trans hflattens))
  | short hw _ _ _ _ _ => exact hw.elim
  | named hget hregular _ _ _ _ ih =>
      have hid := ne_negation_of_regular hv hget hregular
      rw [foldNegations_call (opposite?_of_ne hid _),
        readBack_call (signed?_of_ne hid _) (.inr (by simp)), List.map_singleton, List.map_singleton, ih]
  | assign _ _ _ htarget hvalue => rw [readBack, htarget, hvalue, foldNegations]
  | _ => rw [readBack, foldNegations]

/-! ## Reading twice -/

/-- The tokens of a text without doubles, without names that begin with a point, and without calls
of the sum and the product by name. -/
structure Rereadable (tokens : List Token) : Prop where
  noDouble : ∀ t ∈ tokens, t.kind.isDouble = false
  noPoint : ∀ t ∈ tokens, t.kind.isIdent = true → t.text.toList.head? ≠ some '.'
  noCall : ∀ pair ∈ tokens.zip tokens.tail, pair.2.kind.isOpen = true →
    pair.1.text ≠ "add" ∧ pair.1.text ≠ "multiply"

theorem Rereadable.allows {text : String} (h : Rereadable (Token.scan text)) :
    Leeway.Allows {} (Token.scan text) where
  double := by
    intro t ht x hk
    have hdouble := h.noDouble t ht
    rw [hk] at hdouble
    cases hdouble
  name := fun t ht hident => Token.isName_of_mem_scan ht hident (h.noPoint t ht hident)
  byName := .inr h.noCall

/-- The tree of such a text is readable. -/
theorem readable_of_parse (hv : v.functions = Standard.registry)
    (hconstants : ∀ name c, v.constant? name = some c →
      Token.IsName c.name.toList ∧ v.constant? c.name = some c)
    {text : String} (htext : Rereadable (Token.scan text))
    (h : Parser.parse v n (Token.scan text) = (.ok e, m)) : Readable {} v m e :=
  htext.allows.readable hv hconstants h

/-- What a readable tree is written as is parsed to the tree with its negations folded. -/
theorem parse_of_readable (hv : v.functions.HasOperators) (h : Readable {} v n e) :
    ∃ m, n.Extends m ∧
      Parser.parse v n (Token.scan (e.fullText v.functions)) = (.ok e.foldNegations, m) := by
  obtain ⟨m, hextends, hparse⟩ := parse_write hv (fun _ (hx : False) => hx.elim) h false
  rw [readBack_of_readable hv h] at hparse
  exact ⟨m, hextends, hparse⟩

/-- What a calculator with the standard functions and constants has read without error is read again
from its full form, but for the negations of whole numbers without sign, which become numbers. -/
theorem parse_fullText {c : Calculator}
    (hc : c.vocabulary = (Calculator.new { constants := true, functions := true }).vocabulary)
    {text : String} (hparse : (c.parse text).1.error? = none)
    (htext : Rereadable (Token.scan text)) :
    ((c.parse text).2.parse ((c.parse text).2.fullText (c.parse text).1)).1 =
      (c.parse text).1.foldNegations := by
  have hfunctions : c.vocabulary.functions = Standard.registry := by
    rw [hc]
    exact Calculator.registry_new _
  have hconstants : ∀ name constant, c.vocabulary.constant? name = some constant →
      Token.IsName constant.name.toList ∧
        c.vocabulary.constant? constant.name = some constant := by
    intro name constant h
    rw [hc] at h ⊢
    have hstandard := Calculator.isStandard_of_constant? h
    refine ⟨?_, hstandard.known⟩
    rcases hstandard.name with hname | hname <;> rw [hname] <;> decide +kernel
  have hreadable := readable_of_parse hfunctions hconstants htext (Calculator.parse_eq_ok hparse)
  obtain ⟨m, -, hagain⟩ := parse_of_readable (hfunctions ▸ Standard.hasOperators_registry) hreadable
  exact Calculator.parse_of_eq_ok hagain

/-- An assignment with a negated number, a negated constant and two calls by name. -/
theorem parse_fullText_of_assignment :
    let c := Calculator.new { constants := true, functions := true }
    let text := "x = 2 - -(3) * sqrt(-(pi)) + abs(-7)"
    (c.parse text).1.error? = none ∧
      ((c.parse text).2.parse ((c.parse text).2.fullText (c.parse text).1)).1 =
        (c.parse text).1.foldNegations := by
  intro c text
  have hparse : (c.parse text).1.error? = none := by decide +kernel
  have htext : Rereadable (Token.scan text) :=
    ⟨by decide +kernel, by decide +kernel, by decide +kernel⟩
  exact ⟨hparse, parse_fullText rfl hparse htext⟩

end Expr

end Reckoner
