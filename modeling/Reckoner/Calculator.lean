import Reckoner.Expr.Eval
import Reckoner.Expr.Printer
import Reckoner.Fraction.Reading
import Reckoner.Parser
import Reckoner.Standard.Functions
import Reckoner.Token.Lexer

/-!
The calculator: what it reads with, the variables it has met, and what they are bound to.

Reading and evaluation always have an outcome; an error is a tree and a value.
-/
namespace Reckoner

/-- What a calculator starts with: the mode, whether it knows the standard constants and the usual
functions, and how many significant digits its decimal readings have. -/
structure Options where
  mode : Mode := .float
  constants : Bool := false
  functions : Bool := false
  digits : Nat := 8
deriving DecidableEq, Repr

/-- A calculator: what it reads with, the variables that it has met, what it evaluates in, the tree
that was evaluated last, and how many significant digits its decimal readings have. -/
structure Calculator where
  vocabulary : Vocabulary
  names : Names := {}
  store : Store := {}
  last : Option Expr := none
  digits : Nat

/-- What there is to show of an evaluation: the value, its decimal reading if it is a fraction, the
tokens, and the tree in its two forms. -/
structure Outcome where
  value : Value
  reading : Option Reading
  tokens : String
  full : String
  minimal : String

namespace Calculator

/-- A calculator that has met no variable. -/
def new (o : Options) : Calculator :=
  let v := Standard.vocabulary
  let v := if o.constants then Standard.addConstants v else v
  let v := if o.functions then Standard.addFunctions v else v
  { vocabulary := v, store := { mode := o.mode }, digits := o.digits }

instance : Inhabited Calculator :=
  ⟨new {}⟩

/-- The functions. -/
def registry (c : Calculator) : Registry :=
  c.vocabulary.functions

/-- The mode. -/
def mode (c : Calculator) : Mode :=
  c.store.mode

/-- Change the mode. -/
def setMode (c : Calculator) (mode : Mode) : Calculator :=
  { c with store := c.store.setMode mode }

/-- Change the number of digits of decimal readings. -/
def setDigits (c : Calculator) (digits : Nat) : Calculator :=
  { c with digits }

/-- Add a function, or replace the one of the same name. -/
def addFunction (c : Calculator) (f : NamedFunction) : Calculator :=
  { c with vocabulary := c.vocabulary.addFunction f }

/-- Let the name and the aliases denote a constant. -/
def addConstant (c : Calculator) (name : String) (value : Value) (aliases : List String) :
    Calculator :=
  { c with vocabulary := c.vocabulary.addConstant name value aliases }

/-- Add the standard constants. -/
def addStandardConstants (c : Calculator) : Calculator :=
  { c with vocabulary := Standard.addConstants c.vocabulary }

/-- Add the usual functions. -/
def addStandardFunctions (c : Calculator) : Calculator :=
  { c with vocabulary := Standard.addFunctions c.vocabulary }

/-! ## Variables -/

/-- The number of a variable, which is met thereby. -/
def idOf (c : Calculator) (name : String) : VariableId × Calculator :=
  let (id, names) := c.names.idOf name
  (id, { c with names })

/-- The value of a variable. -/
def value? (c : Calculator) (id : VariableId) : Option Value :=
  c.store.value? id

/-- Bind a variable. -/
def setVariable (c : Calculator) (id : VariableId) (v : Value) : Calculator :=
  { c with store := c.store.set id v }

/-- Forget the value of a variable; it keeps its number. -/
def unsetVariable (c : Calculator) (id : VariableId) : Calculator :=
  { c with store := c.store.unset id }

/-- The variables met so far with their values, by number. -/
def variableList (c : Calculator) : List (VariableId × String × Option Value) :=
  c.names.entries.map fun (id, name) => (id, name, c.value? id)

/-! ## Reading and evaluation -/

/-- The tree of a text. -/
def parse (c : Calculator) (text : String) : Expr × Calculator :=
  let (e, names) := Parser.read c.vocabulary c.names (Token.scan text)
  (e, { c with names })

/-- The value of a tree. -/
def evaluate (c : Calculator) (e : Expr) : Value × Calculator :=
  let (v, store) := e.eval c.registry c.store
  (v, { c with store })

/-- The value of a text; its tree is kept as the last one. -/
def eval (c : Calculator) (text : String) : Value × Calculator :=
  let (e, c) := c.parse text
  let (v, c) := c.evaluate e
  (v, { c with last := some e })

/-- The minimal form of a tree. -/
def minimalText (c : Calculator) (e : Expr) : String :=
  e.minimalText c.registry

/-- The full form of a tree. -/
def fullText (c : Calculator) (e : Expr) : String :=
  e.fullText c.registry

/-- The decimal reading of a fraction. -/
def reading? (c : Calculator) : Value → Option Reading
  | .fraction f => some (f.reading c.digits)
  | _ => none

/-- The value of a text, with its tokens, the two forms of its tree and the decimal reading. -/
def evalInDetail (c : Calculator) (text : String) : Outcome × Calculator :=
  let (value, c) := c.eval text
  let form := fun write : Expr → String => (c.last.map write).getD ""
  ({ value
     reading := c.reading? value
     tokens := Token.displayAll (Token.scan text)
     full := form c.fullText
     minimal := form c.minimalText }, c)

example : ((new { mode := .exact }).eval "1/3 + 1/6").1.text = "1/2" := by decide +kernel

example : ((new {}).evalInDetail "2-(3-4)*5").1.minimal = "2 - (3 - 4) * 5" := by decide +kernel

example : ((new {}).evalInDetail "x = 2+3+4").1.full = "(x = (2 + 3 + 4))" := by decide +kernel

end Calculator

end Reckoner
