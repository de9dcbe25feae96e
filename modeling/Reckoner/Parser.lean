import Reckoner.Parser.Reduction

/-!
Parsing by operator precedence.

The parser reads the tokens once. At each nesting level it keeps the tokens that are in postfix
order already and the operators that still wait for their right operand. A new operator first
sends those waiting operators that bind at least as tightly into the postfix order; so does a
prefix operator.

An opening parenthesis begins a new level. After the name of a function it begins two: one that
collects the arguments of the call, and above it one for the argument being read. A comma or the
closing parenthesis reduces the level to a tree, which takes part as one token in the level below.
A number directly before an identifier or an opening parenthesis is followed by an unwritten `*`.
-/
namespace Reckoner

namespace Parser

/-- One nesting level, with the byte offset at which it begins. Its tokens are in postfix order, and
its waiting operators have the latest first. If it collects the arguments of a call, the function
waits as its only operator. -/
structure Level where
  isCall : Bool := false
  start : Nat := 0
  output : List Token := []
  pending : List Token := []

/-- The state between two tokens: the innermost level, the levels around it from the inside out, and
the name of a function whose opening parenthesis comes next. -/
structure State where
  current : Level := {}
  outer : List Level := []
  callee : Option Token := none

/-- The tokens of the level in postfix order, the waiting operators included. -/
def Level.finished (l : Level) : List Token :=
  l.output ++ l.pending

/-- Add an operand. -/
def Level.push (l : Level) (t : Token) : Level :=
  { l with output := l.output ++ [t] }

/-- The waiting operator `top` goes before an operator of this precedence. -/
def precedes (v : Vocabulary) (precedence : Int) (top : Token) : Bool :=
  match operator? v top with
  | some (_, g) => decide (precedence ≤ g.precedence)
  | none => false

/-- Add an operator of this precedence. -/
def Level.pushOperator (v : Vocabulary) (l : Level) (t : Token) (precedence : Int) : Level :=
  { l with
    output := l.output ++ l.pending.takeWhile (precedes v precedence)
    pending := t :: l.pending.dropWhile (precedes v precedence) }

/-- Add an operand at the innermost level. -/
def State.push (s : State) (t : Token) : State :=
  { s with current := s.current.push t }

/-- Add an operator at the innermost level. -/
def State.operator (v : Vocabulary) (s : State) (t : Token) : Parsing State :=
  match operator? v t with
  | some (_, f) => return { s with current := s.current.pushOperator v t f.precedence }
  | none => throw (.unsupported t.text t.position)

/-- Begin a level, and below it one for the call if a function is waiting for its arguments. -/
def State.openLevel (s : State) (position : Nat) : State :=
  let calls : List Level :=
    match s.callee with
    | some f => [{ isCall := true, start := position, pending := [f] }]
    | none => []
  { current := { start := position }, outer := calls ++ s.current :: s.outer }

/-- End an argument and begin the next one. -/
def State.nextArgument (v : Vocabulary) (s : State) (position : Nat) : Parsing State :=
  match s.outer with
  | call :: outer =>
    if call.isCall then do
      let e ← reduce v s.current.start s.current.finished
      return { s with
        current := { start := position }
        outer := call.push (.ofExpr e s.current.start) :: outer }
    else
      throw (.unexpectedComma position)
  | [] => throw (.unexpectedComma position)

/-- The arguments that a call has collected. -/
def argumentsOf : List Token → Except ParseError (List Expr)
  | [] => .ok []
  | t :: rest =>
    match t.kind with
    | .tree e => (argumentsOf rest).map (e :: ·)
    | _ => .error (.strayToken t.text t.position)

/-- The tree of the call that a level has collected. -/
def reduceCall (v : Vocabulary) (l : Level) : Except ParseError Expr :=
  match l.pending.getLast? with
  | none => .error (.missingFunction l.start)
  | some name =>
    let found := (v.functions.findRegular? name.text).bind fun id =>
      (v.functions.get? id).map fun f => (id, f)
    match found with
    | none => .error (.unknownFunction name.text name.position)
    | some (id, f) =>
      match argumentsOf l.output with
      | .error e => .error e
      | .ok arguments =>
        if f.arity.accepts arguments.length then
          build f id arguments
        else
          .error (.wrongCount f.name f.arity arguments.length name.position)

/-- The tree of the innermost level; a call may end without an argument being read. -/
def reduceInner (v : Vocabulary) (inCall : Bool) (l : Level) : Parsing (List Token) :=
  if l.finished.isEmpty && inCall then
    return []
  else
    return [.ofExpr (← reduce v l.start l.finished) l.start]

/-- End the innermost level, and with it the call whose last argument it is. -/
def State.close (v : Vocabulary) (s : State) (position : Nat) : Parsing State :=
  match s.outer with
  | [] => throw (.extraClose position)
  | enclosing :: outer => do
    let inner ← reduceInner v enclosing.isCall s.current
    let level := { enclosing with output := enclosing.output ++ inner }
    if level.isCall then
      match reduceCall v level with
      | .error e => throw e
      | .ok call =>
        match outer with
        | [] => throw (.extraClose position)
        | base :: outer =>
          return { s with current := base.push (.ofExpr call level.start), outer }
    else
      return { s with current := level, outer }

/-- The token that stands for a `*` that is not written. -/
def impliedTimes (position : Nat) : Token :=
  .classify ['*'] position

/-- A number directly before this token is multiplied with it. -/
def opensOperand : Option Token → Bool
  | some t => t.kind.isOpen || t.kind.isIdent
  | none => false

/-- Read one token; `next` is the one after it. -/
def step (v : Vocabulary) (s : State) (t : Token) (next : Option Token) : Parsing State :=
  match t.kind, s.callee with
  | .lparen, _ => return s.openLevel t.position
  | _, some f => throw (.awaitedArguments f.text t.position)
  | .comma, none => s.nextArgument v t.position
  | .rparen, none => s.close v t.position
  | .ident _, none =>
    if next.any (·.kind.isOpen) then
      if (v.functions.findRegular? t.text).isSome then
        return { s with callee := some t }
      else
        throw (.unknownFunction t.text t.position)
    else
      return s.push t
  | .int _, none | .double _, none =>
    if opensOperand next then
      (s.push t).operator v (impliedTimes t.position)
    else
      return s.push t
  | .tree _, none => return s.push t
  | _, none => s.operator v t

/-- Read tokens to the end. -/
def run (v : Vocabulary) : State → List Token → Parsing State
  | s, [] => return s
  | s, t :: rest => do run v (← step v s t rest.head?) rest

/-- The tree of a list of tokens. -/
def parseTokens (v : Vocabulary) (tokens : List Token) : Parsing Expr :=
  match tokens with
  | [] => throw .noTokens
  | _ => do
    let s ← run v {} tokens
    if s.outer.isEmpty then
      reduce v s.current.start s.current.finished
    else
      throw (.missingClose s.current.start)

/-- The tree of a list of tokens or the reason why there is none, and the variables met. -/
def parse (v : Vocabulary) (names : Names) (tokens : List Token) :
    Except ParseError Expr × Names :=
  match (parseTokens v tokens).run names with
  | .ok e names => (.ok e, names)
  | .error e names => (.error e, names)

/-- The tree of a list of tokens, an error being a tree too, and the variables met. -/
def read (v : Vocabulary) (names : Names) (tokens : List Token) : Expr × Names :=
  match parse v names tokens with
  | (.ok e, names) => (e, names)
  | (.error e, names) => (.ofError e.toCalcError, names)

end Parser

end Reckoner
