import Reckoner.Journal.Calculator
import Reckoner.Window

/-!
The journal of a session and of its window: what each command and each gesture records.
-/
namespace Reckoner

namespace Session

/-- The records of making the session to begin with. -/
def newRecords : List Record :=
  Calculator.newRecords (options .exact defaultDigits)

/-- The records of a command. -/
def records (s : Session) : Command → List Record
  | .write _ | .reuse _ | .clearHistory | .setDigits _ | .setForm _ => []
  | .evaluate =>
    let text := Text.trim s.entry
    if text = "" then
      []
    else
      ⟨.debug, "évaluation de " ++ Text.quote text⟩ :: s.calculator.evalRecords text
  | .restart =>
    Calculator.newRecords (options s.mode s.digits)
      ++ [⟨.info, "nouvelle session (variables oubliées)"⟩]
  | .forget id => [Calculator.unsetRecord id]
  | .setMode mode => [Calculator.modeRecord mode]

/-- The records of commands in order. -/
def allRecords (s : Session) : List Command → List Record
  | [] => []
  | c :: rest => s.records c ++ (s.apply c).allRecords rest

end Session

namespace Window

/-- The records of making the window to begin with. -/
def newRecords : List Record :=
  Session.newRecords ++ [⟨.trace, "Creating new Fonts"⟩]

/-- The record of laying out the table of variables for the first time: the widths of its columns
are measured thereby, and it is laid out again with them. -/
def layoutRecords (before after : Window) : List Record :=
  if after.measured && !before.measured then [⟨.trace, "request_discard: allowed"⟩] else []

/-- The records of a gesture. -/
def records (w : Window) (g : Gesture) : List Record :=
  w.session.allRecords (w.commands g) ++ layoutRecords w (w.act g)

example : ((new.act (.type "x")).records .enter).getLast? =
    some ⟨.trace, "request_discard: allowed"⟩ := by
  decide +kernel

example : (((new.act (.type "x")).act .enter).records .look) = [] := by decide +kernel

end Window

end Reckoner
