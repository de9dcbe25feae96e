import Reckoner.Function

/-!
Registries of functions.

A function keeps its place for good: registering a name again replaces the description at the
place that the name already has. Two indexes stand beside the descriptions: that of the names, which
says where a function is to be put, and that of the symbols of functions that are no prefix
operators. In both of them a later entry hides an earlier one for the same key.
-/
namespace Reckoner

/-- The functions in the order of their first registration, and the places of names and symbols. -/
structure Registry where
  functions : List NamedFunction := []
  byName : List (String × FunctionId) := []
  symbols : List (String × FunctionId) := []

namespace Registry

instance : Inhabited Registry :=
  ⟨{}⟩

/-- The number of functions. -/
def size (r : Registry) : Nat :=
  r.functions.length

/-- The description at a place. -/
def get? (r : Registry) (id : FunctionId) : Option NamedFunction :=
  r.functions[id]?

/-- The place that the index has for a name. -/
def findByName? (r : Registry) (name : String) : Option FunctionId :=
  r.byName.lookup name

/-- The place that a symbol denotes. -/
def findBySymbol? (r : Registry) (symbol : String) : Option FunctionId :=
  r.symbols.lookup symbol

/-- The place that a text before parentheses denotes: it is taken as a name, then as a symbol. -/
def findRegular? (r : Registry) (text : String) : Option FunctionId :=
  (r.findByName? text).or (r.findBySymbol? text)

/-- The place that a registration of `f` gets: that of its name, or the next free one. -/
def placeOf (r : Registry) (f : NamedFunction) : FunctionId :=
  (r.findByName? f.name).getD r.size

/-- The symbol under which `f` can be found. -/
def indexedSymbol? (f : NamedFunction) : Option String :=
  if f.fixity = .prefixOp then none else f.symbol

/-- Add `f`, or put it in the place of the function of the same name. -/
def register (r : Registry) (f : NamedFunction) : Registry :=
  let id := r.placeOf f
  { functions := if id = r.size then r.functions ++ [f] else r.functions.set id f
    byName := (f.name, id) :: r.byName
    symbols :=
      match indexedSymbol? f with
      | some symbol => (symbol, id) :: r.symbols
      | none => r.symbols }

/-- Register several functions in order. -/
def registerAll (r : Registry) (fs : List NamedFunction) : Registry :=
  fs.foldl register r

end Registry

end Reckoner
