import Reckoner.Proofs.Standard.Registry

/-!
What functions read of the store.

A function is called with all of the store and may look up any variable in it. The standard
functions look at the mode and at nothing else.
-/
namespace Reckoner

/-- A call reads nothing of the store but the mode and the values of these variables. -/
def NamedFunction.ReadsOnly (f : NamedFunction) (reads : VariableId → Prop) : Prop :=
  ∀ s s' : Store, s'.mode = s.mode → (∀ id, reads id → s'.value? id = s.value? id) →
    ∀ args, f.call s' args = f.call s args

/-- So it is with all functions of the registry. -/
def Registry.ReadsOnly (r : Registry) (reads : VariableId → Prop) : Prop :=
  ∀ id f, r.get? id = some f → f.ReadsOnly reads

namespace Standard

variable {f : NamedFunction}

/-- The standard functions read the mode only. -/
theorem readsOnly_of_mem (hf : f ∈ fundamentals ++ functions) : f.ReadsOnly fun _ => False := by
  intro s s' hmode _ args
  revert f
  simp [fundamentals, functions, infixOperator, usual, NamedFunction.call, inMode, hmode]

theorem readsOnly_registry : registry.ReadsOnly fun _ => False :=
  fun _ _ hf => readsOnly_of_mem (List.mem_of_getElem? hf)

/-- A standard function may as well be called without any bindings. -/
theorem call_of_mode_eq {id : FunctionId} {s : Store} {mode : Mode}
    (hf : registry.get? id = some f) (hmode : s.mode = mode) (args : List Value) :
    f.call s args = f.call { mode } args :=
  readsOnly_registry id f hf { mode } s hmode nofun args

end Standard

end Reckoner
