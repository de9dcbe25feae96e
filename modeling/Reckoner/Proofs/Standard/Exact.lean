import Reckoner.Proofs.Standard.Fallback
import Reckoner.Proofs.Standard.Powers
import Reckoner.Proofs.Standard.Reading
import Reckoner.Proofs.Standard.Unary

/-!
The standard functions in the exact mode.

What a function gives is the true rational result in canonical form, a double, or an error; an exact
result comes from exact arguments only.
-/
namespace Reckoner

namespace Standard

/-- What the function of this name may give for these arguments in the exact mode. There is no error
where a result over the rational numbers is defined, even if doubles stand in their place. -/
inductive Outcome (name : String) (args : List Value) : Value → Prop
  | exact {v : Value} {qs : List ℚ} {q : ℚ} (hargs : args.mapM Value.rat? = some qs)
      (hq : rationalResult? name qs = some q) (hv : v.Exactly q) : Outcome name args v
  | double (x : Float) : Outcome name args (.double x)
  | error {e : CalcError} (h : e.kind = .divisionByZero → DividesByZero name args)
      (hnone : ∀ qs, List.Forall₂ Value.Approximates args qs → rationalResult? name qs = none) :
      Outcome name args (.error e)

variable {name : String} {args : List Value} {v a b : Value} {p q : ℚ} {f : Fraction 64}

/-! ## Floating point -/

/-- An error on account of the number of arguments. -/
theorem outcome_wrongCount
    (hcount : ∀ qs, rationalResult? name qs ≠ none → qs.length ≠ args.length) :
    Outcome name args wrongCount := by
  refine .error nofun fun qs hqs => ?_
  by_contra hdefined
  exact hcount qs hdefined hqs.length_eq.symm

theorem exists_toFloat? (ha : a.WellFormed) : ∃ x, a.toFloat? = some x := by
  cases a with
  | null => exact ha.elim
  | error _ => exact ha.elim
  | _ => exact ⟨_, rfl⟩

theorem outcome_onTwoFloats (op : Float → Float → Float) (ha : a.WellFormed) (hb : b.WellFormed) :
    Outcome name args (onTwoFloats op a b) := by
  obtain ⟨x, hx⟩ := exists_toFloat? ha
  obtain ⟨y, hy⟩ := exists_toFloat? hb
  rw [onTwoFloats, hx, hy]
  exact .double _

theorem outcome_unary (op : Float → Float)
    (hcount : ∀ qs, rationalResult? name qs ≠ none → qs.length = 1)
    (hargs : ∀ a ∈ args, a.WellFormed) : Outcome name args (unary op args) := by
  unfold unary
  split
  · next a =>
      have ha := hargs a List.mem_cons_self
      obtain ⟨x, hx⟩ := exists_toFloat? ha
      simp only [ha.not_isError, Bool.false_eq_true, if_false, onFloat, hx]
      exact .double _
  · next hne =>
      refine outcome_wrongCount fun qs hdefined heq => ?_
      obtain ⟨a, rfl⟩ := List.length_eq_one_iff.1 (heq.symm.trans (hcount qs hdefined))
      exact hne a rfl

/-! ## Sums, differences, products and quotients -/

/-- The wrong number of operands. -/
theorem outcome_binary_of_length_ne {attempt : Mode → Value → Value → Attempt}
    {op : Float → Float → Float} (hname : name ∈ ["subtract", "divide", "pow"])
    (hlength : args.length ≠ 2) : Outcome name args (binary attempt op .exact args) := by
  unfold binary
  split
  · exact absurd rfl hlength
  · exact outcome_wrongCount fun qs hdefined heq =>
      hlength (heq.symm.trans (length_eq_two hname qs hdefined))

theorem operand_of_wellFormed (ha : a.WellFormed) : a.Operand := by
  cases a with
  | int n => exact .inl trivial
  | fraction f =>
      obtain ⟨hden, hcoprime⟩ := ha
      exact .inl ⟨by omega, hcoprime⟩
  | double x => exact .inr (.inr ⟨x, rfl⟩)
  | _ => exact ha.elim

/-- An operation on the right number of operands is exact, a division by zero, or done in floating
point. -/
theorem operation_cases (o : Fraction.Operation) (hargs : ∀ a ∈ args, a.WellFormed)
    (hcount : o = .sub ∨ o = .div → args.length = 2) :
    (∃ x, o.call .exact args = .double x) ∨
      (o.DividesByZero args ∧ o.call .exact args = .divisionByZero) ∨
      ∃ qs q, args.mapM Value.rat? = some qs ∧ rationalResult? o.name qs = some q ∧
        (o.call .exact args).Exactly q := by
  have hoperands := fun a ha => operand_of_wellFormed (hargs a ha)
  rcases Fraction.Operation.call_exact_cases hoperands hcount with
    ⟨q, ⟨fs, hfs, hq, -⟩, hv⟩ | h | ⟨-, -, hfloat⟩
  · refine .inr (.inr ⟨fs.map Fraction.toRat, q, ?_, hq, hv⟩)
    rw [Value.mapM_rat?_eq, hfs, Option.map_some]
  · exact .inr (.inl h)
  · left
    rw [hfloat]
    have hnoError := firstError?_eq_none fun a ha => (hargs a ha).not_isError
    exact Fraction.Operation.exists_call_float hnoError
      (fun a ha => exists_toFloat? (hargs a ha)) hcount

theorem outcome_operation (o : Fraction.Operation) (hargs : ∀ a ∈ args, a.WellFormed) :
    Outcome o.name args (o.call .exact args) := by
  by_cases hcount : o = .sub ∨ o = .div → args.length = 2
  · rcases operation_cases o hargs hcount with
      ⟨x, hx⟩ | ⟨⟨rfl, p, hp⟩, hzero⟩ | ⟨qs, q, hqs, hq, hv⟩
    · rw [hx]
      exact .double x
    · obtain ⟨a, b, rfl⟩ := List.length_eq_two.1 (hcount (.inr rfl))
      rw [hzero]
      refine .error (fun _ => .inl ⟨rfl, a, b, p, rfl, ?_⟩) fun qs hqs => ?_
      · obtain ⟨_, _, ha, hrest, ⟨⟩⟩ := Value.mapM_cons_eq_some hp
        obtain ⟨_, _, hb, -, ⟨⟩⟩ := Value.mapM_cons_eq_some hrest
        exact ⟨ha, hb⟩
      · obtain rfl := Value.mapM_rat?_eq_of_approximates hp hqs
        simp [Fraction.Operation.name, rationalResult?]
    · exact .exact hqs hq hv
  · obtain ⟨ho, hlength⟩ := Classical.not_imp.1 hcount
    rcases ho with rfl | rfl
    · exact outcome_binary_of_length_ne (by simp [Fraction.Operation.name]) hlength
    · exact outcome_binary_of_length_ne (by simp [Fraction.Operation.name]) hlength

/-! ## Powers -/

theorem mapM_rat?_pair (ha : a.Exactly p) (hb : b.Exactly q) :
    [a, b].mapM Value.rat? = some [p, q] := by
  simp [List.mapM_cons, ha.2, hb.2]

/-- A power that is found exactly. -/
theorem outcome_powerExact {n : BitVec 64} (ha : a.Exactly p) (hf : f.Represents p)
    (h : powerExact f n = some v) : Outcome "pow" [a, .int n] v := by
  have hexponent : (Value.int n).Exactly n.toInt := ⟨trivial, rfl⟩
  by_cases hdefined : p = 0 ∧ n.toInt ≤ 0
  · obtain ⟨rfl, hn⟩ := hdefined
    obtain ⟨e, he, -⟩ := powerExact_zero hf hn
    obtain rfl : Value.error e = v := Option.some.inj (he.symm.trans h)
    refine .error (fun _ => .inr ⟨rfl, a, n, rfl, ha.2, hn⟩) fun qs hqs => ?_
    obtain rfl := Value.mapM_rat?_eq_of_approximates (mapM_rat?_pair ha hexponent) hqs
    simp [rationalResult?, hn]
  · refine .exact (mapM_rat?_pair ha hexponent) ?_ (exactly_powerExact hf hdefined h)
    have hcondition : ((n.toInt : ℚ).den = 1 ∧ ¬ (p = 0 ∧ (n.toInt : ℚ) ≤ 0)) :=
      ⟨Rat.den_intCast _, by exact_mod_cast hdefined⟩
    simp only [rationalResult?, if_pos hcondition, Rat.num_intCast]

theorem outcome_power (hargs : ∀ a ∈ args, a.WellFormed) :
    Outcome "pow" args (power .exact args) := by
  by_cases hlength : args.length = 2
  · obtain ⟨a, b, rfl⟩ := List.length_eq_two.1 hlength
    have ha := hargs a (by simp)
    have hb := hargs b (by simp)
    have hfloat : Outcome "pow" [a, b] (onTwoFloats Float.pow a b) := outcome_onTwoFloats _ ha hb
    rw [power, binary, firstError?_eq_none fun a ha => (hargs a ha).not_isError]
    simp only [attemptPower, attemptIn]
    split
    · next f n hf =>
        obtain ⟨p, hp, hform⟩ := ha.exactly_of_toFraction? hf
        rw [Attempt.getD_ofOption]
        cases hpower : powerExact f n with
        | some v => exact outcome_powerExact hp hform hpower
        | none => exact hfloat
    · exact hfloat
  · exact outcome_binary_of_length_ne (by simp) hlength

/-! ## Operations on one operand -/

/-- The outcome on one operand from that of the exact result. -/
theorem outcome_unaryExact {exact : Fraction 64 → Option Value} {op : Float → Float}
    (hexact : ∀ {f : Fraction 64} {q : ℚ} {v : Value}, f.Represents q → exact f = some v →
      ∃ x, rationalResult? name [q] = some x ∧ v.Exactly x)
    (hcount : ∀ qs, rationalResult? name qs ≠ none → qs.length = 1)
    (hargs : ∀ a ∈ args, a.WellFormed) : Outcome name args (unaryExact exact op .exact args) := by
  rcases args with _ | ⟨a, _ | ⟨b, rest⟩⟩
  · exact outcome_unary op hcount hargs
  · rw [unaryExact]
    cases h : a.toFraction?.bind exact with
    | none => exact outcome_unary op hcount hargs
    | some v =>
        obtain ⟨f, hf, hv⟩ := Option.bind_eq_some_iff.1 h
        obtain ⟨q, hq, hfrac⟩ := (hargs a (by simp)).exactly_of_toFraction? hf
        obtain ⟨x, hx, hexactly⟩ := hexact hfrac hv
        exact .exact (by simp [List.mapM_cons, hq.2]) hx hexactly
  · exact outcome_unary op hcount hargs

theorem outcome_negate (hargs : ∀ a ∈ args, a.WellFormed) :
    Outcome "negate" args (negate .exact args) := by
  refine outcome_unaryExact (fun {f q v} hf h => ⟨-q, rfl, ?_⟩) (length_eq_one (by simp)) hargs
  split at h
  · cases h
  · next hleast =>
      cases h
      exact Value.exactly_ofFraction (represents_neg hf hleast)

theorem outcome_abs (hargs : ∀ a ∈ args, a.WellFormed) :
    Outcome "abs" args (abs .exact args) := by
  refine outcome_unaryExact (fun {f q v} hf h => ⟨|q|, rfl, ?_⟩) (length_eq_one (by simp)) hargs
  obtain ⟨n, hn, rfl⟩ := Option.map_eq_some_iff.1 h
  rw [unlessOverflow_abs] at hn
  split at hn
  next => cases hn
  next hleast =>
    cases hn
    exact Value.exactly_ofFraction (represents_abs hf hleast)

theorem outcome_round (hargs : ∀ a ∈ args, a.WellFormed) :
    Outcome "round" args (round .exact args) := by
  refine outcome_unaryExact (fun {f q v} hf h => ⟨nearestInt q, rfl, ?_⟩)
    (length_eq_one (by simp)) hargs
  cases h
  obtain ⟨x, hrun, hx⟩ := Fraction.run_round hf.den_pos
  rw [hf.toRat_eq] at hx
  refine ⟨trivial, ?_⟩
  simp only [Value.rat?, Checked.result, hrun, hx]

/-! ## The registered functions -/

/-- A function without results over the rational numbers. -/
theorem outcome_usual (op : Float → Float) (hname : name ∈ usualNames)
    (hargs : ∀ a ∈ args, a.WellFormed) : Outcome name args (unary op args) := by
  have hnone : ∀ name ∈ usualNames, ∀ qs, rationalResult? name qs = none := by
    simp [usualNames, rationalResult?]
  exact outcome_unary op (fun qs hdefined => absurd (hnone name hname qs) hdefined) hargs

/-- What a registered function gives in the exact mode. -/
theorem outcome_call {id : FunctionId} {f : NamedFunction} {s : Store}
    (hf : registry.get? id = some f) (hmode : s.mode = .exact)
    (hargs : ∀ a ∈ args, a.WellFormed) : Outcome f.name args (f.call s args) := by
  have hall : ∀ f ∈ fundamentals ++ functions,
      Outcome f.name args (f.call { mode := .exact } args) := by
    refine forall_mem_standard ?_ (fun name hname op _ => outcome_usual op hname hargs)
      (outcome_round hargs) (outcome_abs hargs)
    simp only [fundamentals, List.forall_mem_cons]
    exact ⟨outcome_operation .add hargs, outcome_operation .mul hargs,
      outcome_operation .sub hargs, outcome_operation .div hargs, outcome_negate hargs,
      outcome_power hargs, .error (by simp) fun _ _ => rfl, List.forall_mem_nil _⟩
  rw [call_of_mode_eq hf hmode]
  exact hall f (List.mem_of_getElem? hf)

end Standard

end Reckoner
