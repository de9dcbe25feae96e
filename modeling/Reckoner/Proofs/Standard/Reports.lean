import Reckoner.Proofs.Fraction.Faults
import Reckoner.Proofs.Standard.Canonical
import Reckoner.Proofs.Standard.Exact

/-!
The standard functions with the reports of their arithmetic.

A function of values looks only at whether a computation with words overflowed and drops what it
reported of faults. Here every function has a twin that computes the same and drops nothing, so that
a fault in any division or plain operation would show. None does: the twin gives the same value and
leaves the status as it was.
-/
namespace Reckoner

namespace Checked

variable {α β : Type}

/-- The result of `x`; that it overflowed is forgotten, a fault is not. -/
def settle (x : Checked α) : Checked α := do
  return (← apart x).1

/-- The result of `x`, or nothing if it overflowed; a fault is not forgotten. -/
def attempt (x : Checked α) : Checked (Option α) := do
  let (a, wrapped) ← apart x
  return if wrapped then none else some a

/-- From no mark raised on, the computation gives `a` and raises none. -/
def Gives (x : Checked α) (a : α) : Prop :=
  x.run {} = (a, {})

variable {x : Checked α} {a : α} {f : α → Checked β} {b : β}

theorem gives_pure (a : α) : Gives (pure a) a :=
  rfl

theorem Gives.bind (hx : Gives x a) (hf : Gives (f a) b) : Gives (x >>= f) b := by
  rw [Gives, run_bind, hx]
  exact hf

theorem Gives.map (hx : Gives x a) (g : α → β) : Gives (g <$> x) (g a) := by
  rw [map_eq_pure_bind]
  exact hx.bind (gives_pure _)

/-- Lowering `overflow` leaves nothing of a status without a fault. -/
theorem lowered_eq {s : Status} (h : s.fault = false) :
    { s with overflow := false } = ({} : Status) := by
  rw [h]

theorem gives_settle (h : Faultless x) : Gives (settle x) x.result := by
  rw [Gives, settle, run_bind, run_apart, run_pure]
  exact Prod.ext rfl (lowered_eq (h {}))

theorem gives_attempt (h : Faultless x) : Gives (attempt x) x.unlessOverflow := by
  rw [Gives, attempt, run_bind, run_apart]
  exact Prod.ext rfl (lowered_eq (h {}))

end Checked

open Checked

namespace Value

/-- The canonical value of a fraction in lowest terms. -/
def ofReduced (f : Fraction 64) : Value :=
  if f.isValid then
    if f.isInteger then int f.num else fraction f
  else
    divisionByZero

/-- The canonical value of a fraction, with the report. -/
def ofFractionReporting (f : Fraction 64) : Checked Value :=
  ofReduced <$> settle f.normalize

theorem gives_ofFraction (f : Fraction 64) : Gives (ofFractionReporting f) (ofFraction f) :=
  (gives_settle (f.faultless_normalize (by decide))).map ofReduced

end Value

namespace Standard

open Value (ofFractionReporting gives_ofFraction)

/-! ## The functions that report -/

/-- The value of what an operation gave, if it gave something. -/
def valueReporting : Option (Fraction 64) → Checked (Option Value)
  | some f => some <$> ofFractionReporting f
  | none => return none

/-- `foldExact` with the report. -/
def foldReporting (op : FractionOperation) (acc : Fraction 64) :
    List Value → Checked (Option Value)
  | [] => some <$> ofFractionReporting acc
  | a :: rest =>
    match a.toFraction? with
    | none => return none
    | some f => do
      match ← attempt (op acc f) with
      | none => return none
      | some acc => foldReporting op acc rest

/-- `twoExact` with the report. -/
def twoReporting (op : FractionOperation) (a b : Value) : Checked (Option Value) :=
  match a.toFraction?, b.toFraction? with
  | some f, some g => do valueReporting (← attempt (op f g))
  | _, _ => return none

/-- The product of `f` and `g` with the report if it is wanted, and otherwise `f`. -/
def mulReporting (wanted : Bool) (f g : Fraction 64) : Checked (Option (Fraction 64)) :=
  if wanted then attempt (Fraction.mul f g) else return some f

/-- `powerFrom` with the report. -/
def powerFromReporting (result square : Fraction 64) (e : Nat) :
    Checked (Option (Fraction 64)) :=
  if e = 0 then
    return some result
  else do
    let result? ← mulReporting (e % 2 = 1) result square
    let square? ← mulReporting (e / 2 ≠ 0) square square
    match result?, square? with
    | some result, some square => powerFromReporting result square (e / 2)
    | _, _ => return none
termination_by e

/-- `powerExact` with the report. -/
def powerReporting (base : Fraction 64) (exponent : BitVec 64) : Checked (Option Value) :=
  if exponent = 0#64 then
    if base.num = 0#64 then
      return some (.fail .divisionByZero "0^0 is not defined")
    else
      return some (.int 1#64)
  else if base = .ofWord 1#64 then
    return some (.int 1#64)
  else do
    match ← powerFromReporting (.ofWord 1#64) base exponent.toInt.natAbs with
    | none => return none
    | some power =>
      if exponent.slt 0#64 then
        valueReporting (← attempt (Fraction.div (.ofWord 1#64) power))
      else
        some <$> ofFractionReporting power

/-- The exact result of the function of this name, with the report; nothing where the operation is
done in floating point. -/
def exactReporting (name : String) (args : List Value) : Checked (Option Value) :=
  match name, args with
  | "add", args => foldReporting Fraction.add (.ofWord 0#64) args
  | "multiply", args => foldReporting Fraction.mul (.ofWord 1#64) args
  | "subtract", [a, b] => twoReporting Fraction.sub a b
  | "divide", [a, b] =>
    if !a.isExact then
      return none
    else if isZero b then
      return some .divisionByZero
    else
      twoReporting Fraction.div a b
  | "pow", [a, b] =>
    match a.toFraction?, b with
    | some base, .int n => powerReporting base n
    | _, _ => return none
  | "negate", [a] =>
    match a.toFraction? with
    | some q =>
      if q.num = Word.least 64 then return none else some <$> ofFractionReporting q.neg
    | none => return none
  | "abs", [a] =>
    match a.toFraction? with
    | some q => do
      valueReporting ((← attempt (Word.abs q.num)).map fun n => ⟨n, q.den⟩)
    | none => return none
  | "round", [a] =>
    match a.toFraction? with
    | some q => (fun n => some (.int n)) <$> settle q.round
    | none => return none
  | _, _ => return none

/-- The value of a call, with the report of its arithmetic on words: only the exact mode has any,
and only on operands that are no errors. -/
def callReporting (f : NamedFunction) (s : Store) (args : List Value) : Checked Value :=
  match s.mode, firstError? args with
  | .exact, none =>
    (fun v? => v?.getD (f.call (s.setMode .float) args)) <$> exactReporting f.name args
  | _, _ => return f.call s args

/-! ## No report -/

variable {op : FractionOperation} {args : List Value} {a b : Value}

theorem gives_value (f? : Option (Fraction 64)) :
    Gives (valueReporting f?) (f?.map Value.ofFraction) := by
  cases f? with
  | none => exact gives_pure _
  | some f => exact (gives_ofFraction f).map some

theorem gives_fold (hop : ∀ f g, Faultless (op f g)) (acc : Fraction 64) :
    Gives (foldReporting op acc args) (foldExact op acc args) := by
  induction args generalizing acc with
  | nil => exact (gives_ofFraction acc).map some
  | cons a rest ih =>
      rw [foldReporting, foldExact]
      cases a.toFraction? with
      | none => exact gives_pure _
      | some f =>
          refine (gives_attempt (hop acc f)).bind ?_
          dsimp only
          cases (op acc f).unlessOverflow with
          | none => exact gives_pure _
          | some acc => exact ih acc

theorem gives_two (hop : ∀ f g, Faultless (op f g)) (a b : Value) :
    Gives (twoReporting op a b) (twoExact op a b) := by
  rw [twoReporting, twoExact]
  cases a.toFraction? with
  | none => exact gives_pure _
  | some f =>
      cases b.toFraction? with
      | none => exact gives_pure _
      | some g => exact (gives_attempt (hop f g)).bind (gives_value _)

theorem gives_mul (wanted : Bool) (f g : Fraction 64) :
    Gives (mulReporting wanted f g)
      (if wanted then (Fraction.mul f g).unlessOverflow else some f) := by
  cases wanted with
  | false => exact gives_pure _
  | true => exact gives_attempt (Fraction.faultless_mul (by decide) f g)

theorem gives_powerFrom (result square : Fraction 64) (e : Nat) :
    Gives (powerFromReporting result square e) (powerFrom result square e) := by
  induction e using Nat.strongRecOn generalizing result square with
  | _ e ih =>
      rw [powerFromReporting, powerFrom]
      split
      · exact gives_pure _
      · next hne =>
          refine (gives_mul _ result square).bind ((gives_mul _ square square).bind ?_)
          simp only [decide_eq_true_eq, ne_eq, ite_not]
          generalize (if e % 2 = 1 then (result.mul square).unlessOverflow else some result) = f?
          generalize (if e / 2 = 0 then some square else (square.mul square).unlessOverflow) = g?
          rcases f? with _ | f
          · exact gives_pure _
          · rcases g? with _ | g
            · exact gives_pure _
            · exact ih (e / 2) (by omega) f g

theorem gives_power (base : Fraction 64) (n : BitVec 64) :
    Gives (powerReporting base n) (powerExact base n) := by
  unfold powerReporting powerExact
  split
  · split <;> exact gives_pure _
  · split
    · exact gives_pure _
    · refine (gives_powerFrom _ _ _).bind ?_
      cases powerFrom (.ofWord 1#64) base n.toInt.natAbs with
      | none => exact gives_pure _
      | some power =>
          dsimp only
          split
          · exact (gives_attempt (Fraction.faultless_div (by decide) _ _)).bind (gives_value _)
          · exact (gives_ofFraction power).map some

/-- In the exact mode the function gives its exact result, or what it gives in floating point. The
exact result is found without a report. -/
def Reported (f : NamedFunction) (args : List Value) : Prop :=
  ∃ v?, Gives (exactReporting f.name args) v? ∧
    f.call { mode := .exact } args = v?.getD (f.call { mode := .float } args)

variable {f : NamedFunction}

theorem reported_of_call_eq (hname : exactReporting f.name args = pure none)
    (hcall : f.call { mode := .exact } args = f.call { mode := .float } args) : Reported f args :=
  ⟨none, hname ▸ gives_pure none, hcall⟩

theorem exactReporting_unary (hname : f.name ∈ ["negate", "abs", "round"])
    (hlength : args.length ≠ 1) :
    exactReporting f.name args = pure none := by
  simp only [List.mem_cons, List.not_mem_nil, or_false] at hname
  rcases hname with hname | hname | hname <;> rw [hname] <;>
    rcases args with _ | ⟨a, _ | ⟨b, rest⟩⟩ <;> first | rfl | exact absurd rfl hlength

theorem exactReporting_binary (hname : f.name ∈ ["subtract", "divide", "pow"])
    (hlength : args.length ≠ 2) : exactReporting f.name args = pure none := by
  simp only [List.mem_cons, List.not_mem_nil, or_false] at hname
  rcases hname with hname | hname | hname <;> rw [hname] <;>
    rcases args with _ | ⟨a, _ | ⟨b, _ | ⟨c, rest⟩⟩⟩ <;> first | rfl | exact absurd rfl hlength

/-- An operation on two operands is reported on if its exact attempt is. -/
theorem reported_binary {attempt : Mode → Value → Value → Attempt} {op : Float → Float → Float}
    (hf : f.eval = some (inMode (binary attempt op)))
    (hname : f.name ∈ ["subtract", "divide", "pow"])
    (hfloat : ∀ a b u, (attempt .float a b).getD u = u)
    (hattempt : ∀ a b, ∃ v?, Gives (exactReporting f.name [a, b]) v? ∧
      ∀ u, (attempt .exact a b).getD u = v?.getD u)
    (hargs : firstError? args = none) : Reported f args := by
  have hcall : ∀ s : Store, f.call s args = binary attempt op s.mode args := fun s => by
    rw [NamedFunction.call, hf]
    rfl
  by_cases hlength : args.length = 2
  · obtain ⟨a, b, rfl⟩ := List.length_eq_two.1 hlength
    obtain ⟨v?, hgives, hv⟩ := hattempt a b
    refine ⟨v?, hgives, ?_⟩
    rw [hcall, hcall, ← hv]
    simp only [binary, hargs, hfloat]
  · refine reported_of_call_eq (exactReporting_binary hname hlength) ?_
    rw [hcall, hcall]
    unfold binary
    split
    · exact absurd rfl hlength
    · rfl

/-- A function of one operand is reported on if its exact result is. -/
theorem reported_unaryExact {exact : Fraction 64 → Option Value} {op : Float → Float}
    (hf : f.eval = some (inMode (unaryExact exact op)))
    (hname : f.name ∈ ["negate", "abs", "round"])
    (hexact : ∀ a ∈ args, Gives (exactReporting f.name [a]) (a.toFraction?.bind exact)) :
    Reported f args := by
  have hcall : ∀ s : Store, f.call s args = unaryExact exact op s.mode args := fun s => by
    rw [NamedFunction.call, hf]
    rfl
  by_cases hlength : args.length = 1
  · obtain ⟨a, rfl⟩ := List.length_eq_one_iff.1 hlength
    refine ⟨_, hexact a List.mem_cons_self, ?_⟩
    rw [hcall, hcall]
    rfl
  · refine reported_of_call_eq (exactReporting_unary hname hlength) ?_
    rw [hcall, hcall]
    unfold unaryExact
    split
    · exact absurd rfl hlength
    · rfl

theorem reported_add (hargs : firstError? args = none) (hf : f.eval = some (inMode add))
    (hname : f.name = "add") : Reported f args := by
  refine ⟨foldExact Fraction.add (.ofWord 0#64) args, ?_, ?_⟩
  · rw [hname]
    exact gives_fold (Fraction.faultless_add (by decide)) _
  · simp only [NamedFunction.call, hf, inMode, add, hargs, attemptAdd, attemptIn,
      Attempt.getD_ofOption]
    rfl

theorem reported_multiply (hargs : firstError? args = none) (hf : f.eval = some (inMode multiply))
    (hname : f.name = "multiply") : Reported f args := by
  refine ⟨foldExact Fraction.mul (.ofWord 1#64) args, ?_, ?_⟩
  · rw [hname]
    exact gives_fold (Fraction.faultless_mul (by decide)) _
  · simp only [NamedFunction.call, hf, inMode, multiply, hargs, attemptMultiply, attemptIn,
      Attempt.getD_ofOption]
    rfl

theorem reported_subtract (hargs : firstError? args = none) (hf : f.eval = some (inMode subtract))
    (hname : f.name = "subtract") : Reported f args := by
  refine reported_binary hf (by simp [hname]) (fun _ _ _ => rfl) (fun a b => ?_) hargs
  rw [hname]
  exact ⟨_, gives_two (Fraction.faultless_sub (by decide)) a b, Attempt.getD_ofOption _⟩

theorem reported_divide (hargs : firstError? args = none) (hf : f.eval = some (inMode divide))
    (hname : f.name = "divide") : Reported f args := by
  refine reported_binary hf (by simp [hname]) (fun a b u => ?_) (fun a b => ?_) hargs
  · unfold attemptDivide
    split
    · rfl
    · split <;> rfl
  · have heq : exactReporting "divide" [a, b] =
        if !a.isExact then pure none
        else if isZero b then pure (some Value.divisionByZero)
        else twoReporting Fraction.div a b := rfl
    rw [hname, heq, attemptDivide]
    split
    · exact ⟨none, gives_pure _, fun _ => rfl⟩
    · split
      · exact ⟨_, gives_pure _, fun _ => rfl⟩
      · exact ⟨_, gives_two (Fraction.faultless_div (by decide)) a b, Attempt.getD_ofOption _⟩

theorem reported_power (hargs : firstError? args = none) (hf : f.eval = some (inMode power))
    (hname : f.name = "pow") : Reported f args := by
  refine reported_binary hf (by simp [hname]) (fun _ _ _ => rfl) (fun a b => ?_) hargs
  have heq : exactReporting "pow" [a, b] =
      match a.toFraction?, b with
      | some base, .int n => powerReporting base n
      | _, _ => pure none := rfl
  rw [hname, heq]
  unfold attemptPower
  cases a.toFraction? with
  | none => exact ⟨none, gives_pure _, fun _ => rfl⟩
  | some base =>
      cases b with
      | int n => exact ⟨_, gives_power base n, Attempt.getD_ofOption _⟩
      | _ => exact ⟨none, gives_pure _, fun _ => rfl⟩

theorem reported_negate (hf : f.eval = some (inMode negate)) (hname : f.name = "negate") :
    Reported f args := by
  refine reported_unaryExact hf (by simp [hname]) fun a _ => ?_
  rw [hname]
  show Gives (match a.toFraction? with | some q => _ | none => _) _
  cases a.toFraction? with
  | none => exact gives_pure _
  | some q =>
      rw [Option.bind_some]
      dsimp only
      split
      · exact gives_pure _
      · exact (gives_ofFraction _).map some

theorem reported_abs (hf : f.eval = some (inMode abs)) (hname : f.name = "abs") :
    Reported f args := by
  refine reported_unaryExact hf (by simp [hname]) fun a _ => ?_
  rw [hname]
  show Gives (match a.toFraction? with | some q => _ | none => _) _
  cases a.toFraction? with
  | none => exact gives_pure _
  | some q =>
      have hvalue := gives_value ((Word.abs q.num).unlessOverflow.map fun n => ⟨n, q.den⟩)
      rw [Option.map_map] at hvalue
      exact (gives_attempt (Word.faultless_abs _ (by decide))).bind hvalue

/-- Rounding is where canonical form matters: the denominator is not zero. -/
theorem reported_round (hf : f.eval = some (inMode round)) (hname : f.name = "round")
    (hcanonical : ∀ a ∈ args, a.Canonical) : Reported f args := by
  refine reported_unaryExact hf (by simp [hname]) fun a ha => ?_
  rw [hname]
  have hden : ∀ q, a.toFraction? = some q → 0 < q.den.toInt := by
    intro q hq
    cases a with
    | int n =>
        cases hq
        exact show 0 < (1#64 : BitVec 64).toInt by decide
    | fraction q' =>
        cases hq
        have hlower := (hcanonical _ ha q rfl).1
        omega
    | _ => cases hq
  show Gives (match a.toFraction? with | some q => _ | none => _) _
  cases hq : a.toFraction? with
  | none => exact gives_pure _
  | some q =>
      exact (gives_settle (Fraction.faultless_round (hden q hq))).map fun n => some (Value.int n)

/-- A denominator that is zero would be reported. -/
example : ((exactReporting "round" [.fraction ⟨1, 0⟩]).run {}).2.fault = true := by decide +kernel

/-- Every call of a registered function on canonical operands is reported on. -/
theorem reported_call {id : FunctionId} (hf : registry.get? id = some f)
    (hargs : firstError? args = none) (hcanonical : ∀ a ∈ args, a.Canonical) : Reported f args := by
  have husual : ∀ name ∈ usualNames, exactReporting name args = pure none := by
    simp only [usualNames, List.forall_mem_cons]
    exact ⟨rfl, rfl, rfl, rfl, rfl, rfl, rfl, rfl, rfl, rfl, rfl, rfl, rfl, rfl,
      List.forall_mem_nil _⟩
  have hall : ∀ f ∈ fundamentals ++ functions, Reported f args := by
    refine forall_mem_standard ?_
      (fun name hname _ _ => reported_of_call_eq (husual name hname) rfl)
      (reported_round rfl rfl hcanonical) (reported_abs rfl rfl)
    simp only [fundamentals, List.forall_mem_cons]
    exact ⟨reported_add hargs rfl rfl, reported_multiply hargs rfl rfl,
      reported_subtract hargs rfl rfl, reported_divide hargs rfl rfl, reported_negate rfl rfl,
      reported_power hargs rfl rfl, reported_of_call_eq rfl rfl, List.forall_mem_nil _⟩
  exact hall f (List.mem_of_getElem? hf)

/-- A call gives the same with the report as without, and there is nothing to report. -/
theorem gives_call {id : FunctionId} (hf : registry.get? id = some f) (s : Store)
    (hcanonical : ∀ a ∈ args, a.Canonical) : Gives (callReporting f s args) (f.call s args) := by
  unfold callReporting
  split
  · next hmode hargs =>
      obtain ⟨v?, hgives, hcall⟩ := reported_call hf hargs hcanonical
      rw [call_of_mode_eq hf hmode, call_of_mode_eq (s := s.setMode .float) hf rfl, hcall]
      exact hgives.map _
  · exact gives_pure _

end Standard

end Reckoner
