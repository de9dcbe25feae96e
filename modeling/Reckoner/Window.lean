import Reckoner.Decimal.Numeral
import Reckoner.Session

/-!
The window on a session: the texts that it shows, in order, and what the gestures of a user do.

A gesture turns into commands to the session. Whether the entry line has the focus decides which
gestures reach it; a session that wants the focus gets it as soon as the gesture is done.
-/
namespace Reckoner

/-- What a click on a text does: nothing but take the focus from the entry line, put the cursor
there, or give the session a command. -/
inductive Click where
  | nothing
  | enterLine
  | command (c : Session.Command)
deriving DecidableEq, Repr

/-- A text in the window, with what a click on it does and what is shown while the pointer rests on
it. -/
structure Widget where
  text : String
  click : Click := .nothing
  hint : Option String := none
deriving DecidableEq, Repr

/-- A session in its window, and whether the entry line has the focus. The table of variables is
`measured` once it has been laid out, so that the widths of its columns are known. -/
structure Window where
  session : Session
  focused : Bool
  measured : Bool := false

/-- What a user does: look, write on the entry line, press a key, click on a text or into the entry
line, or change the field of digits. -/
inductive Gesture where
  | look
  | type (text : String)
  | append (text : String)
  | enter
  | escape
  | keyL (control : Bool)
  /-- Click on the text number `nth`, from zero, of those that read `label`. -/
  | click (label : String) (nth : Nat)
  | focus
  | digits (text : String)
  /-- Drag the field of digits by this many points. -/
  | drag (points : Int)
deriving DecidableEq, Repr

namespace Window

/-! ## What is shown -/

/-- The settings at the top. -/
def settings (s : Session) : List Widget :=
  [ { text := "SmallCalc" }
  , { text := "Exact"
      click := .command (.setMode (.ofBool !s.mode.isExact))
      hint := some "Entiers et fractions exacts, repli flottant au dépassement" }
  , { text := "Décimales :" }
  , { text := toString s.digits }
  , { text := "Arbre :" }
  , { text := "lisible", click := .command (.setForm .minimal)
      hint := some "Parenthèses minimales" }
  , { text := "complet", click := .command (.setForm .full)
      hint := some "Parenthèses partout : relu tel quel par le parser" }
  , { text := "Effacer l’historique", click := .command .clearHistory }
  , { text := "Nouvelle session", click := .command .restart
      hint := some "Oublie aussi les variables" } ]

/-- One variable. -/
def variableRow : VariableId × String × Option String → List Widget
  | (id, name, some value) =>
    [{ text := name }, { text := value }, { text := "oublier", click := .command (.forget id) }]
  | (_, name, none) => [{ text := name }, { text := "non liée" }]

/-- The variables. -/
def variablePanel (s : Session) : List Widget :=
  { text := "Variables" } ::
    match s.variableList with
    | [] => [{ text := "aucune (ex: x = 1/3)" }]
    | vs => vs.flatMap variableRow

/-- The entry line, the error and the tokens. -/
def entryLine (s : Session) : List Widget :=
  [ { text :=
        if s.entry = "" then "expression ou affectation, Enter pour évaluer" else s.entry
      click := .enterLine }
  , { text := s.error }
  , { text := if s.tokens = "" then "" else "jetons : " ++ s.tokens } ]

/-- One line of the history: an error shows its text only. -/
def line (form : Form) (index : Nat) (l : Line) : List Widget :=
  let head : List Widget :=
    [ { text := "↺", click := .command (.reuse index), hint := some "Reprendre cette entrée" }
    , { text := l.entry } ]
  if l.isError then
    head ++ [{ text := l.value }]
  else
    let tree := l.inForm form
    head ++
      [ { text := if tree = l.entry then "" else tree }
      , { text := l.value }
      , { text := (l.reading.map Reading.display).getD "" } ]

/-- The history. -/
def history (s : Session) : List Widget :=
  match s.history with
  | [] => [{ text := "Ex: 1/3 + 1/6, x = 2^-3, 2sin(pi/4), √(2)" }]
  | lines => (lines.zipIdx.map fun (l, i) => line s.form i l).flatten

/-- All that the window shows, in order. -/
def widgets (w : Window) : List Widget :=
  let s := w.session
  (settings s ++ variablePanel s ++ entryLine s ++ history s).filter fun x => x.text ≠ ""

/-- The texts that the window shows. -/
def shown (w : Window) : List String :=
  w.widgets.map (·.text)

/-- The text number `nth`, from zero, of those that read `label`. -/
def find? (w : Window) (label : String) (nth : Nat) : Option Widget :=
  (w.widgets.filter fun x => x.text == label)[nth]?

/-! ## What gestures do -/

/-- There is a table of variables. -/
def hasTable (s : Session) : Bool :=
  !s.variableList.isEmpty

/-- Lay the window out, and give the entry line the focus if the session wants it. -/
def settle (w : Window) : Window :=
  { session := { w.session with wantsFocus := false }
    focused := w.focused || w.session.wantsFocus
    measured := w.measured || hasTable w.session }

/-- The window to begin with. -/
def new : Window :=
  settle { session := .new, focused := false }

/-- The number that was written into the field of digits, cut to a whole one within the limits.
White space does not count, and a typographic minus sign is one. -/
def readDigits? (text : String) : Option Nat :=
  let plain := (text.toList.filter (!Text.isWhiteSpace ·)).map fun c => if c = '−' then '-' else c
  (Decimal.readFloat? plain).map fun x =>
    if x.isNaN then
      if plain.head? = some '-' then 0 else Session.maxDigits
    else if x ≤ 0 then
      0
    else if x < 200 then
      x.toUInt64.toNat
    else
      Session.maxDigits

/-- The number of digits after dragging: one more for every four points, within the limits. -/
def dragged (digits : Nat) (points : Int) : Nat :=
  min ((digits : Int) + points / 4).toNat Session.maxDigits

/-- The commands that a gesture gives to the session. -/
def commands (w : Window) : Gesture → List Session.Command
  | .look | .focus => []
  | .type text => if w.focused then [.write text] else []
  | .append text => if w.focused then [.write (w.session.entry ++ text)] else []
  | .enter => if w.focused then [.evaluate] else []
  | .escape => [.write ""]
  | .keyL control => if control then [.clearHistory] else []
  | .click label nth =>
    match w.find? label nth with
    | some { click := .command c, .. } => [c]
    | _ => []
  | .digits text =>
    match readDigits? text with
    | some n => [.setDigits n]
    | none => []
  | .drag points => [.setDigits (dragged w.session.digits points)]

/-- Whether the entry line has the focus after a gesture, unless the session wants it. -/
def keepsFocus (w : Window) : Gesture → Bool
  | .enter | .digits _ => false
  | .escape | .focus => true
  | .click label nth =>
    match w.find? label nth with
    | some x => decide (x.click = .enterLine)
    | none => w.focused
  | .look | .type _ | .append _ | .keyL _ | .drag _ => w.focused

/-- The window after a gesture. -/
def act (w : Window) (g : Gesture) : Window :=
  settle { w with session := w.session.applyAll (w.commands g), focused := w.keepsFocus g }

/-- The text that a gesture is about is in the window. -/
def finds (w : Window) : Gesture → Bool
  | .click label nth => (w.find? label nth).isSome
  | _ => true

/-- What is shown while the pointer rests on a text. -/
def hovered? (w : Window) (label : String) (nth : Nat) : Option (List String) :=
  (w.find? label nth).map fun x => w.shown ++ x.hint.toList

example : ((new.act (.type "1/3+1/6")).act .enter).shown.drop 11 =
    [ "expression ou affectation, Enter pour évaluer", "jetons : 1 / 3 + 1 / 6", "↺"
    , "1/3+1/6", "1 / 3 + 1 / 6", "1/2", "= 0.5" ] := by
  decide +kernel

end Window

end Reckoner
