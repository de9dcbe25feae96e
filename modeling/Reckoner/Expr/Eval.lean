import Reckoner.Registry
import Reckoner.Store

/-!
Evaluation of expressions.

Arguments are evaluated from left to right, and the first error among them is the value of the
call. An assignment looks at its target before its value is evaluated, and binds the target only
to a value that is no error. Nothing else changes the store.
-/
namespace Reckoner

namespace Expr

mutual

/-- The value of an expression and the store afterwards. -/
def eval (r : Registry) : Expr → Store → Value × Store
  | literal v, s => (v, s)
  | constant _ v, s => (v, s)
  | var name id, s =>
    match s.value? id with
    | some v => (v, s)
    | none => (.fail .unboundVariable ("Variable " ++ name ++ " is not bound"), s)
  | call id arguments, s =>
    match r.get? id with
    | none => (.fail .invalidOperation "Unknown function handle", s)
    | some f =>
      match evalAll r arguments s with
      | (.ok values, s) => (f.call s values, s)
      | (.error e, s) => (.error e, s)
  | assign (var _ id) value, s =>
    match eval r value s with
    | (.error e, s) => (.error e, s)
    | (v, s) => (v, s.set id v)
  | assign _ _, s => (.fail .badType "Variable expected on left side", s)

/-- The values of a list of arguments up to the first error, and the store afterwards. -/
def evalAll (r : Registry) : List Expr → Store → Except CalcError (List Value) × Store
  | [], s => (.ok [], s)
  | e :: rest, s =>
    match eval r e s with
    | (.error err, s) => (.error err, s)
    | (v, s) =>
      match evalAll r rest s with
      | (.ok vs, s) => (.ok (v :: vs), s)
      | (.error err, s) => (.error err, s)

end

end Expr

end Reckoner
