/-!
Computations that report on their own arithmetic.

A checked computation carries a `Status` with two marks. `overflow` says that a true result did
not fit its word and the wrapped one was used: it is an answer, and callers read it. `fault` says
that a step which the computation takes to be safe was not: a division by zero, or a plain
operation whose true result did not fit. Both marks are only ever raised.
-/
namespace Reckoner

/-- What the steps of a computation have reported so far. -/
structure Status where
  /-- Some checked operation wrapped. -/
  overflow : Bool := false
  /-- Some step that was taken to be safe was not. -/
  fault : Bool := false
deriving DecidableEq, Repr

/-- A computation that may raise the marks of a `Status`. -/
abbrev Checked (α : Type) := StateM Status α

namespace Checked

/-- Raise `overflow` if `wrapped` holds. -/
def mark (wrapped : Bool) : Checked Unit :=
  modify fun s => { s with overflow := s.overflow || wrapped }

/-- Raise `fault` unless the step about to be taken is safe. -/
def expect (safe : Bool) : Checked Unit :=
  modify fun s => { s with fault := s.fault || !safe }

/-- Whether `overflow` has been raised. -/
def overflowed : Checked Bool :=
  Status.overflow <$> get

/-- The result of a computation that starts with no mark raised. -/
def result {α : Type} (x : Checked α) : α :=
  (x.run {}).1

/-- The result of a computation that starts with no mark raised, or `none` if it overflowed. -/
def unlessOverflow {α : Type} (x : Checked α) : Option α :=
  let (a, s) := x.run {}
  if s.overflow then none else some a

/--
Run `x` with `overflow` lowered and say whether `x` raised it. The mark of the surrounding
computation is left as it was; a fault inside `x` is a fault of the whole.
-/
def apart {α : Type} (x : Checked α) : Checked (α × Bool) := do
  let outer ← overflowed
  modify fun s => { s with overflow := false }
  let a ← x
  let inner ← overflowed
  modify fun s => { s with overflow := outer }
  return (a, inner)

@[simp] theorem run_mark (wrapped : Bool) (s : Status) :
    (mark wrapped).run s = ((), { s with overflow := s.overflow || wrapped }) :=
  rfl

@[simp] theorem run_expect (safe : Bool) (s : Status) :
    (expect safe).run s = ((), { s with fault := s.fault || !safe }) :=
  rfl

@[simp] theorem run_overflowed (s : Status) : overflowed.run s = (s.overflow, s) :=
  rfl

theorem run_apart {α : Type} (x : Checked α) (s : Status) :
    (apart x).run s =
      let (a, t) := x.run { s with overflow := false }
      ((a, t.overflow), { t with overflow := s.overflow }) :=
  rfl

end Checked

end Reckoner
