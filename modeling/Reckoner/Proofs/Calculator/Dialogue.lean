import Reckoner.Proofs.Calculator

/-!
What a host asks of a calculator, and what it is answered.

A tree that has been returned can be evaluated again at any time, whatever has happened since, so a
transcript keeps all of them.
-/
namespace Reckoner

namespace Calculator

variable (c : Calculator) (text : String) (e : Expr)

theorem tree_parse :
    (c.parse text).1 = (Parser.read c.vocabulary c.names (Token.scan text)).1 := rfl

@[simp]
theorem vocabulary_parse : (c.parse text).2.vocabulary = c.vocabulary := rfl

@[simp]
theorem store_parse : (c.parse text).2.store = c.store := rfl

@[simp]
theorem names_parse :
    (c.parse text).2.names = (Parser.read c.vocabulary c.names (Token.scan text)).2 := rfl

@[simp]
theorem vocabulary_evaluate : (c.evaluate e).2.vocabulary = c.vocabulary := rfl

@[simp]
theorem names_evaluate : (c.evaluate e).2.names = c.names := rfl

/-- Evaluation of a text is that of its tree. -/
theorem eval_eq : c.eval text = (((c.parse text).2.evaluate (c.parse text).1).1,
    { ((c.parse text).2.evaluate (c.parse text).1).2 with last := some (c.parse text).1 }) := by
  simp only [eval]

end Calculator

/-- A request to a calculator, where variables are referred to by `κ`. -/
inductive Request (κ : Type) where
  | parse (text : String)
  | eval (text : String)
  /-- Evaluate a tree that was returned before. -/
  | evaluate (index : Nat)
  /-- Give the number of a variable. -/
  | number (name : String)
  | bind (key : κ) (value : Value)
  | unbind (key : κ)
  | setMode (mode : Mode)

/-- A calculator with everything that it has returned, the oldest first: the trees of all texts that
were read, evaluated at once or not, the values of all evaluations, and the numbers of variables. -/
structure Transcript where
  calculator : Calculator
  trees : List Expr := []
  values : List Value := []
  numbers : List VariableId := []

namespace Transcript

/-- The transcript after one more request. A tree that there is not is not evaluated. -/
def ask (t : Transcript) : Request VariableId → Transcript
  | .parse text =>
    { t with
      calculator := (t.calculator.parse text).2
      trees := t.trees ++ [(t.calculator.parse text).1] }
  | .eval text =>
    { t with
      calculator := (t.calculator.eval text).2
      trees := t.trees ++ [(t.calculator.parse text).1]
      values := t.values ++ [(t.calculator.eval text).1] }
  | .evaluate index =>
    match t.trees[index]? with
    | some e =>
      { t with
        calculator := (t.calculator.evaluate e).2
        values := t.values ++ [(t.calculator.evaluate e).1] }
    | none => t
  | .number name =>
    { t with
      calculator := (t.calculator.idOf name).2
      numbers := t.numbers ++ [(t.calculator.idOf name).1] }
  | .bind id v => { t with calculator := t.calculator.setVariable id v }
  | .unbind id => { t with calculator := t.calculator.unsetVariable id }
  | .setMode mode => { t with calculator := t.calculator.setMode mode }

/-- The transcript after requests. -/
def after (t : Transcript) (requests : List (Request VariableId)) : Transcript :=
  requests.foldl ask t

/-- The transcript of a new calculator. -/
def new (o : Options) : Transcript :=
  { calculator := .new o }

/-- The transcript with this tree as the one that was evaluated last. -/
def keepLast (t : Transcript) (e : Expr) : Transcript :=
  { t with calculator := { t.calculator with last := some e } }

theorem ask_evaluate {t : Transcript} {index : Nat} {e : Expr} (h : t.trees[index]? = some e) :
    t.ask (.evaluate index) =
      { t with
        calculator := (t.calculator.evaluate e).2
        values := t.values ++ [(t.calculator.evaluate e).1] } := by
  simp only [ask, h]

theorem ask_evaluate_of_eq_none {t : Transcript} {index : Nat} (h : t.trees[index]? = none) :
    t.ask (.evaluate index) = t := by
  simp only [ask, h]

/-- To evaluate a text is to read it and to evaluate the tree that is returned. -/
theorem ask_eval (t : Transcript) (text : String) :
    t.ask (.eval text) =
      ((t.ask (.parse text)).ask (.evaluate t.trees.length)).keepLast
        (t.calculator.parse text).1 := by
  have htree : (t.ask (.parse text)).trees[t.trees.length]? = some (t.calculator.parse text).1 :=
    List.getElem?_concat_length
  have heval : t.ask (.eval text) =
      { t with
        calculator := (t.calculator.eval text).2
        trees := t.trees ++ [(t.calculator.parse text).1]
        values := t.values ++ [(t.calculator.eval text).1] } := rfl
  rw [heval, Calculator.eval_eq, ask_evaluate htree]
  simp only [keepLast, ask]

/-- No request changes what a calculator reads with. -/
theorem vocabulary_ask (t : Transcript) (request : Request VariableId) :
    (t.ask request).calculator.vocabulary = t.calculator.vocabulary := by
  have hevaluate : ∀ (t : Transcript) (index : Nat),
      (t.ask (.evaluate index)).calculator.vocabulary = t.calculator.vocabulary := by
    intro t index
    cases htree : t.trees[index]? with
    | none => rw [ask_evaluate_of_eq_none htree]
    | some e => rw [ask_evaluate htree, Calculator.vocabulary_evaluate]
  cases request with
  | eval text =>
      rw [ask_eval]
      exact hevaluate (t.ask (.parse text)) _
  | evaluate index => exact hevaluate t index
  | _ => rfl

end Transcript

end Reckoner
