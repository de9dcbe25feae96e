import Reckoner.Calculator
import Reckoner.Text.Blank

/-!
A session: a calculator with an entry line, the outcome of the last evaluation and a history.

The variables live from one line to the next until a new session begins. The history keeps the
last lines up to a limit, and the number of digits is limited too.
-/
namespace Reckoner

/-- Which form of the tree is shown with a line: that with the parentheses that are needed, or that
with parentheses around every operator. -/
inductive Form where
  | minimal
  | full
deriving DecidableEq, Repr

/-- A line that has been evaluated: its text without the white space around it, the two forms of its
tree, and the text of its value or of the error in place of one. -/
structure Line where
  entry : String
  minimal : String
  full : String
  value : String
  reading : Option Reading
  isError : Bool
deriving DecidableEq, Repr

/-- The tree in the chosen form. -/
def Line.inForm (l : Line) : Form → String
  | .minimal => l.minimal
  | .full => l.full

/-- An error with its position where that is known. -/
def CalcError.located (e : CalcError) : String :=
  match e.position with
  | some p => e.text ++ " (position " ++ toString p ++ ")"
  | none => e.text

/-- The line of an outcome. -/
def Line.ofOutcome (entry : String) (o : Outcome) : Line :=
  { entry, minimal := o.minimal, full := o.full, reading := o.reading
    value :=
      match o.value.error? with
      | some e => e.located
      | none => o.value.text
    isError := o.value.isError }

/-- A session: the entry line, the error and the tokens of the last line, the lines with the oldest
first, the settings, the calculator, and whether the entry line is to be given the focus. -/
structure Session where
  entry : String := ""
  error : String := ""
  tokens : String := ""
  history : List Line := []
  form : Form := .minimal
  digits : Nat
  mode : Mode
  calculator : Calculator
  wantsFocus : Bool := true

namespace Session

/-- The number of digits to begin with. -/
def defaultDigits : Nat := 20

/-- The greatest number of digits. -/
def maxDigits : Nat := 200

/-- The greatest number of lines in the history. -/
def maxLines : Nat := 64

/-- What the calculator of a session starts with. -/
def options (mode : Mode) (digits : Nat) : Options :=
  { mode, digits, constants := true, functions := true }

/-- The session to begin with. -/
def new : Session :=
  { digits := defaultDigits, mode := .exact
    calculator := .new (options .exact defaultDigits) }

instance : Inhabited Session :=
  ⟨new⟩

/-- The history with one more line; the oldest one gives way where the history is full. -/
def remember (history : List Line) (l : Line) : List Line :=
  (if history.length = maxLines then history.drop 1 else history) ++ [l]

/-- Keep an outcome. The entry line is emptied unless the outcome is an error. -/
def keep (s : Session) (text : String) (o : Outcome) : Session :=
  let l := Line.ofOutcome text o
  { s with
    entry := if l.isError then s.entry else ""
    error := if l.isError then l.value else ""
    tokens := o.tokens
    history := remember s.history l
    wantsFocus := true }

/-- Evaluate the entry line, without the white space around it; a blank line does nothing. -/
def evaluate (s : Session) : Session :=
  let text := Text.trim s.entry
  if text = "" then
    s
  else
    let (o, calculator) := s.calculator.evalInDetail text
    keep { s with calculator } text o

/-- Put the text of a line of the history back on the entry line. -/
def reuse (s : Session) (index : Nat) : Session :=
  match s.history[index]? with
  | some l => { s with entry := l.entry, wantsFocus := true }
  | none => s

/-- Empty the history. -/
def clearHistory (s : Session) : Session :=
  { s with history := [], error := "", tokens := "" }

/-- Forget all variables and the history; the settings stay. -/
def restart (s : Session) : Session :=
  { s.clearHistory with
    entry := "", wantsFocus := true, calculator := .new (options s.mode s.digits) }

/-- Forget the value of a variable. -/
def forget (s : Session) (id : VariableId) : Session :=
  { s with calculator := s.calculator.unsetVariable id }

/-- Change the number of digits, up to the limit. -/
def setDigits (s : Session) (digits : Nat) : Session :=
  let digits := min digits maxDigits
  { s with digits, calculator := s.calculator.setDigits digits }

/-- Change the mode. -/
def setMode (s : Session) (mode : Mode) : Session :=
  { s with mode, calculator := s.calculator.setMode mode }

/-- The variables with the texts of their values, by number. -/
def variableList (s : Session) : List (VariableId × String × Option String) :=
  s.calculator.variableList.map fun (id, name, v) => (id, name, v.map Value.text)

/-- What can be done with a session. -/
inductive Command where
  | write (text : String)
  | evaluate
  /-- Put a line of the history back on the entry line. -/
  | reuse (index : Nat)
  | clearHistory
  | restart
  | forget (id : VariableId)
  | setDigits (digits : Nat)
  | setMode (mode : Mode)
  | setForm (form : Form)
deriving DecidableEq, Repr

/-- Carry out a command. -/
def apply (s : Session) : Command → Session
  | .write text => { s with entry := text }
  | .evaluate => s.evaluate
  | .reuse index => s.reuse index
  | .clearHistory => s.clearHistory
  | .restart => s.restart
  | .forget id => s.forget id
  | .setDigits digits => s.setDigits digits
  | .setMode mode => s.setMode mode
  | .setForm form => { s with form }

/-- Carry out commands in order. -/
def applyAll (s : Session) (commands : List Command) : Session :=
  commands.foldl apply s

end Session

end Reckoner
