import Reckoner.Proofs.Expr.FullForm

/-!
Reading back the minimal form.

What the minimal form of a readable tree without leeway loses are the negations of numbers without
sign and the nesting of sums within sums and of products within products. So no parentheses are left
out that keep a difference, a quotient, a power, a negation or an assignment together.
-/
namespace Reckoner

namespace Expr

/-- The operands that an operand of the function makes in its place: its own ones if it is a call of
the same function. -/
def ownOperands (id : FunctionId) : Expr → List Expr
  | call f arguments => if f = id then arguments else [call f arguments]
  | e => [e]

mutual

/-- The tree with the operands of every sum within a sum and of every product within a product in
its place. -/
def gather : Expr → Expr
  | literal v => literal v
  | var name id => var name id
  | constant name v => constant name v
  | call id arguments =>
    if flattens id then
      call id ((gatherAll arguments).flatMap (ownOperands id))
    else
      call id (gatherAll arguments)
  | assign target value => assign (gather target) (gather value)

/-- The same in several trees. -/
def gatherAll : List Expr → List Expr
  | [] => []
  | e :: rest => gather e :: gatherAll rest

end

variable {v : Vocabulary} {n : Names} {e : Expr} {o : BinaryOperator}

theorem gatherAll_eq_map (es : List Expr) : gatherAll es = es.map gather := by
  induction es with
  | nil => rw [gatherAll, List.map_nil]
  | cons e rest ih => rw [gatherAll, ih, List.map_cons]

theorem gather_call_of_flattens (ho : o.flattens = true) (args : List Expr) :
    (call o.place args).gather = call o.place ((args.map gather).flatMap (ownOperands o.place)) := by
  rw [gather, gatherAll_eq_map, flattens_place, ho, if_pos rfl]

theorem gather_call_of_not_flattens {id : FunctionId} (h : flattens id = false) (args : List Expr) :
    (call id args).gather = call id (args.map gather) := by
  rw [gather, gatherAll_eq_map, h, if_neg Bool.false_ne_true]

theorem ownOperands_of_ne {id : FunctionId} (h : ∀ args, e ≠ .call id args) :
    ownOperands id e = [e] := by
  unfold ownOperands
  split
  next f args => exact if_neg fun hf => h args (by rw [hf])
  next => rfl

/-- Without leeway a sum or product has two operands, and the first is not of its kind. -/
theorem Readable.exists_operands (hv : v.functions.HasOperators) (ho : o.flattens = true)
    {args : List Expr} (h : Readable {} v n (.call o.place args)) :
    ∃ first second others, args = first :: second :: others ∧
      ∀ args', first ≠ .call o.place args' := by
  generalize hcall : Expr.call o.place args = call at h
  cases h with
  | negate _ => exact absurd (Expr.call.inj hcall).1 o.place_ne_negation
  | @operator o' first second others _ hfirst _ _ =>
      obtain ⟨hplace, rfl⟩ := Expr.call.inj hcall
      obtain rfl := BinaryOperator.place_injective hplace
      exact ⟨first, second, others, rfl, hfirst.resolve_left id ho⟩
  | short hw _ _ _ _ => exact hw.elim
  | named hget hregular _ _ _ _ =>
      obtain ⟨rfl, -⟩ := Expr.call.inj hcall
      rw [hv.operator o, Option.some.injEq] at hget
      rw [← hget, o.fixity_description] at hregular
      cases hregular
  | _ => cases hcall

/-- In the minimal form an operand goes on with its own operands where it is of the same kind. -/
theorem operands_of_readable (hv : v.functions.HasOperators) (ho : o.flattens = true)
    (h : Readable {} v n e) : operands true o.place e = ownOperands o.place (e.readBack true) := by
  by_cases hcall : ∃ args, e = .call o.place args
  · obtain ⟨args, rfl⟩ := hcall
    obtain ⟨first, second, others, rfl, hfirst⟩ := h.exists_operands hv ho
    rw [readBack_of_first ho hfirst, ownOperands, if_pos rfl, operands]
    simp
  · have hne : ∀ args, e ≠ .call o.place args := fun args heq => hcall ⟨args, heq⟩
    rw [operands_of_ne fun _ args _ => hne args, ownOperands_of_ne]
    intro args heq
    obtain ⟨args', hargs'⟩ := exists_call_of_readBack heq
    exact hne args' hargs'

theorem spread_eq_flatMap (minimal : Bool) (id : FunctionId) (args : List Expr) :
    spread minimal id args = args.flatMap (operands minimal id) := by
  induction args with
  | nil => rw [spread_nil, List.flatMap_nil]
  | cons e rest ih => rw [spread_cons, ih, List.flatMap_cons]

/-- The minimal form of a tree without leeway loses negations of unsigned numbers and nesting. -/
theorem gather_of_readable (hv : v.functions.HasOperators) (h : Readable {} v n e) :
    e.readBack true = e.foldNegations.gather := by
  induction h with
  | double hx => exact hx.elim
  | negate he ih =>
      rename_i e
      rw [readBack, foldNegations, signed?_of_readable (by simpa using he)]
      cases opposite? Standard.negation [e] with
      | some k => rw [Option.map_some, gather]
      | none =>
          simp [not_flattens_negation, readBackAll, foldAllNegations,
            gather_call_of_not_flattens not_flattens_negation, ih]
  | @operator o first second others ho hfirst _ hargs ih =>
      have hnot := opposite?_of_ne o.place_ne_negation (first :: second :: others)
      rw [foldNegations_call hnot]
      cases hflattens : o.flattens with
      | true =>
          rw [readBack_of_first hflattens (hfirst.resolve_left id hflattens), spread_eq_flatMap,
            gather_call_of_flattens hflattens, List.map_map, List.flatMap_map]
          congr 1
          refine List.flatMap_congr fun e he => ?_
          rw [operands_of_readable hv hflattens (hargs e he), ih e he]
          rfl
      | false =>
          have hid : flattens o.place = false := (flattens_place o).trans hflattens
          rw [readBack_call (signed?_of_ne o.place_ne_negation _) (.inl hid),
            gather_call_of_not_flattens hid, List.map_map]
          congr 1
          exact List.map_congr_left ih
  | short hw _ _ _ _ _ => exact hw.elim
  | named hget hregular _ _ _ _ ih =>
      have hid := ne_negation_of_regular hv hget hregular
      have hflattens := not_flattens_of_regular hv hget hregular
      rw [foldNegations_call (opposite?_of_ne hid _),
        readBack_call (signed?_of_ne hid _) (.inl hflattens),
        gather_call_of_not_flattens hflattens, List.map_singleton, List.map_singleton,
        List.map_singleton, ih]
  | assign _ _ _ htarget hvalue => rw [readBack, htarget, hvalue, foldNegations, gather]
  | _ => rw [readBack, foldNegations, gather]

/-- What a calculator with the standard functions and constants has read without error is read again
from its minimal form, but for the negations of whole numbers without sign, which become numbers,
and for sums within sums and products within products, which are gathered into one. -/
theorem parse_minimalText {c : Calculator}
    (hc : c.vocabulary = (Calculator.new { constants := true, functions := true }).vocabulary)
    {text : String} (hparse : (c.parse text).1.error? = none)
    (htext : Rereadable (Token.scan text)) :
    ((c.parse text).2.parse ((c.parse text).2.minimalText (c.parse text).1)).1 =
      (c.parse text).1.foldNegations.gather := by
  have hfunctions : c.vocabulary.functions = Standard.registry := by
    rw [hc]
    exact Calculator.registry_new _
  obtain ⟨hreadable, hagain⟩ :=
    readable_and_readBack_of_parse hc (fun _ (hx : False) => hx.elim) hparse htext.allows
  rw [← gather_of_readable (hfunctions ▸ Standard.hasOperators_registry) hreadable]
  exact hagain true

/-- Sums and products within their kind, and operators whose parentheses stay. -/
theorem parse_minimalText_of_nested :
    let c := Calculator.new { constants := true, functions := true }
    let text := "x = 1 + (2 + -(3)) - (4 - y * (z * (5 + (6 + -y)))) / (7 / -(8)^2)"
    (c.parse text).1.error? = none ∧
      ((c.parse text).2.parse ((c.parse text).2.minimalText (c.parse text).1)).1 =
        (c.parse text).1.foldNegations.gather := by
  intro c text
  have hparse : (c.parse text).1.error? = none := by decide +kernel
  have htext : Rereadable (Token.scan text) :=
    ⟨by decide +kernel, by decide +kernel, by decide +kernel⟩
  exact ⟨hparse, parse_minimalText rfl hparse htext⟩

end Expr

end Reckoner
