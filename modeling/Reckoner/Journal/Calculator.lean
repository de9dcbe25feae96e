import Reckoner.Calculator
import Reckoner.Text.Quoted

/-!
The journal of a calculator: what each operation records, in the order in which it happens.
-/
namespace Reckoner

/-! ## Vocabulary -/

/-- The record of registering `f`, with a warning ahead of it if it replaces a function. -/
def Registry.registerRecords (r : Registry) (f : NamedFunction) : List Record :=
  let warning : List Record :=
    if (r.findByName? f.name).isSome then
      [⟨.warn, "fonction " ++ f.name ++ " remplacée"⟩]
    else
      []
  warning ++
    [⟨.debug, "enregistrement " ++ f.name ++ " (arité " ++ f.arity.text ++ ", " ++ f.fixity.text
      ++ ", précédence " ++ toString f.precedence ++ ")"⟩]

/-- The records of registering several functions in order. -/
def Registry.registerAllRecords (r : Registry) : List NamedFunction → List Record
  | [] => []
  | f :: rest => r.registerRecords f ++ (r.register f).registerAllRecords rest

/-- The warnings about names that denote a constant already, the earlier names of the list
included. -/
def Vocabulary.replacedRecords (known : List String) : List String → List Record
  | [] => []
  | key :: rest =>
    (if known.contains key then [⟨.warn, "constante " ++ key ++ " remplacée"⟩] else [])
      ++ replacedRecords (key :: known) rest

/-- The records of adding a constant. -/
def Vocabulary.addConstantRecords (v : Vocabulary) (name : String) (value : Value)
    (aliases : List String) : List Record :=
  ⟨.debug, "constante " ++ name ++ " = " ++ value.text ++ " (alias " ++ Text.quoteAll aliases
      ++ ")"⟩
    :: replacedRecords (v.constants.map Prod.fst) (name :: aliases)

/-- The records of adding the standard constants. -/
def Standard.addConstantsRecords (v : Vocabulary) : List Record :=
  (constants.foldl
    (fun (state : Vocabulary × List Record) c =>
      (state.1.addConstant c.name c.value c.aliases,
        state.2 ++ state.1.addConstantRecords c.name c.value c.aliases))
    (v, [])).2

/-- The records of adding the usual functions. -/
def Standard.addFunctionsRecords (v : Vocabulary) : List Record :=
  v.functions.registerAllRecords functions

/-! ## Parsing and evaluation -/

/-- The position of an error, if it has one. -/
def CalcError.positionText (e : CalcError) : String :=
  match e.position with
  | some p => "Some(" ++ toString p ++ ")"
  | none => "None"

/-- The records of parsing. -/
def Parser.records (v : Vocabulary) (names : Names) (tokens : List Token) : List Record :=
  let opening : Record := ⟨.debug, "parse de " ++ toString tokens.length ++ " jetons"⟩
  match parse v names tokens with
  | (.ok _, _) => [opening]
  | (.error e, _) =>
    let e := e.toCalcError
    [opening, ⟨.debug, "erreur de parse à " ++ e.positionText ++ " : " ++ e.text⟩]

mutual

/-- The records of evaluating an expression. -/
def Expr.records (r : Registry) : Expr → Store → List Record
  | .literal _, _ => []
  | .constant _ _, _ => []
  | .var _ _, _ => []
  | .call id arguments, s =>
    match r.get? id with
    | none => []
    | some f =>
      Expr.recordsAll r arguments s ++
        match Expr.evalAll r arguments s with
        | (.ok values, s) => f.records s values
        | (.error _, _) => []
  | .assign (.var _ _) value, s => Expr.records r value s
  | .assign _ _, _ => []

/-- The records of evaluating arguments up to the first error. -/
def Expr.recordsAll (r : Registry) : List Expr → Store → List Record
  | [], _ => []
  | e :: rest, s =>
    Expr.records r e s ++
      match Expr.eval r e s with
      | (.error _, _) => []
      | (_, s) => Expr.recordsAll r rest s

end

/-! ## Calculators -/

namespace Calculator

/-- The record of a change of mode. -/
def modeRecord (mode : Mode) : Record :=
  ⟨.debug, "mode exact : " ++ (if mode.isExact then "true" else "false")⟩

/-- The records of making a calculator. -/
def newRecords (o : Options) : List Record :=
  let v := Standard.vocabulary
  let withConstants := if o.constants then Standard.addConstants v else v
  ({} : Registry).registerAllRecords Standard.fundamentals
    ++ [modeRecord o.mode]
    ++ (if o.constants then Standard.addConstantsRecords v else [])
    ++ (if o.functions then Standard.addFunctionsRecords withConstants else [])

/-- The records of parsing a text. -/
def parseRecords (c : Calculator) (text : String) : List Record :=
  Parser.records c.vocabulary c.names (Token.scan text)

/-- The records of evaluating a tree. -/
def evaluateRecords (c : Calculator) (e : Expr) : List Record :=
  e.records c.registry c.store

/-- The records of evaluating a text. -/
def evalRecords (c : Calculator) (text : String) : List Record :=
  let (e, parsed) := c.parse text
  c.parseRecords text ++ parsed.evaluateRecords e

/-- The record of forgetting a variable. -/
def unsetRecord (id : VariableId) : Record :=
  ⟨.debug, "variable " ++ toString id ++ " oubliée"⟩

end Calculator

end Reckoner
