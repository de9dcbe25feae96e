import Reckoner.Registry

/-!
What an expression can be read with: functions and constants.
-/
namespace Reckoner

/-- A constant: the name under which it is shown, and its value. -/
structure Constant where
  name : String
  value : Value

/-- Functions, and constants by every name that they go by; an earlier entry hides a later one. -/
structure Vocabulary where
  functions : Registry := {}
  constants : List (String × Constant) := []

namespace Vocabulary

instance : Inhabited Vocabulary :=
  ⟨{}⟩

/-- The constant that a name denotes. -/
def constant? (v : Vocabulary) (name : String) : Option Constant :=
  v.constants.lookup name

/-- Add a function, or replace the one of the same name. -/
def addFunction (v : Vocabulary) (f : NamedFunction) : Vocabulary :=
  { v with functions := v.functions.register f }

/-- Let the name and the aliases denote a constant; it is shown under the name. -/
def addConstant (v : Vocabulary) (name : String) (value : Value) (aliases : List String) :
    Vocabulary :=
  (name :: aliases).foldl
    (fun v key => { v with constants := (key, ⟨name, value⟩) :: v.constants }) v

end Vocabulary

end Reckoner
