import Reckoner.Function
import Reckoner.Text.Quoted

/-!
Descriptions of functions in words, with every field under its name.
-/
namespace Reckoner

/-- An arity in words. -/
def Arity.description : Arity → String
  | exactly n => "Exact(" ++ toString n ++ ")"
  | atLeast n => "AtLeast(" ++ toString n ++ ")"

namespace NamedFunction

/-- The symbol in words. -/
def symbolDescription (f : NamedFunction) : String :=
  match f.symbol with
  | some s => "Some(" ++ Text.quote s ++ ")"
  | none => "None"

/-- The fields of a function with their names; of its evaluation and its builder only whether it
has one. -/
def fields (f : NamedFunction) : List (String × String) :=
  [ ("name", Text.quote f.name)
  , ("printing_name", f.symbolDescription)
  , ("arity", f.arity.description)
  , ("notation", f.fixity.text)
  , ("precedence", toString f.precedence)
  , ("associative", toString f.associative)
  , ("eval", toString f.eval.isSome)
  , ("tree_builder", toString f.builder.isSome) ]

/-- A function in words. -/
def description (f : NamedFunction) : String :=
  "NamedFunction \x7b " ++ ", ".intercalate (f.fields.map fun (name, text) => name ++ ": " ++ text)
    ++ " \x7d"

end NamedFunction

end Reckoner
