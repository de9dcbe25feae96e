import Mathlib.Data.List.DropRight
import Reckoner.Proofs.Expr.Effects
import Reckoner.Session

/-!
What a session shows belongs together.

The history, the error, the tokens and the settings are kept apart from each other and from the
calculator. The history is compared with the list of all evaluations since it was last emptied,
which is read off the commands; everything else is a function of the last line and of the
calculator.
-/
namespace Reckoner

namespace Session

/-! ## Evaluations -/

/-- An entry that is evaluated: its text without the white space around it, and the calculator that
evaluates it. -/
structure Evaluation where
  text : String
  calculator : Calculator

/-- What comes of it. -/
def Evaluation.outcome (x : Evaluation) : Outcome :=
  (x.calculator.evalInDetail x.text).1

/-- The line that shows it. -/
def Evaluation.line (x : Evaluation) : Line :=
  .ofOutcome x.text x.outcome

/-- The evaluation of the entry line, unless it is blank. -/
def evaluation? (s : Session) : Option Evaluation :=
  if Text.trim s.entry = "" then none else some ⟨Text.trim s.entry, s.calculator⟩

/-- The evaluations since the history was last emptied, after one more command. -/
def nextEvaluations (s : Session) (done : List Evaluation) : Command → List Evaluation
  | .evaluate => done ++ s.evaluation?.toList
  | .clearHistory | .restart => []
  | .write _ | .reuse _ | .forget _ | .setDigits _ | .setMode _ | .setForm _ => done

/-- The evaluations since the history was last emptied, the oldest first, after commands. -/
def evaluations (s : Session) (done : List Evaluation) : List Command → List Evaluation
  | [] => done
  | c :: rest => (s.apply c).evaluations (s.nextEvaluations done c) rest

theorem length_rtake {α : Type} (xs : List α) (n : Nat) :
    (xs.rtake n).length = min n xs.length := by
  rw [List.rtake, List.length_drop]
  omega

/-- The history of the last lines, with one more. -/
theorem remember_rtake (xs : List Line) (l : Line) :
    remember (xs.rtake maxLines) l = (xs ++ [l]).rtake maxLines := by
  obtain ⟨m, hmax⟩ : ∃ m, maxLines = m + 1 := Nat.exists_eq_add_one_of_ne_zero (by decide)
  have hgiveWay : (if (xs.rtake maxLines).length = maxLines then (xs.rtake maxLines).drop 1
      else xs.rtake maxLines) = xs.rtake m := by
    rw [length_rtake]
    by_cases hfull : maxLines ≤ xs.length
    · rw [if_pos (Nat.min_eq_left hfull), List.rtake, List.drop_drop, List.rtake]
      congr 1
      omega
    · rw [if_neg (by omega), List.rtake, List.rtake]
      congr 1
      omega
  rw [remember, hgiveWay, hmax, List.rtake_concat_succ]

/-! ## The invariant -/

/-- The error that is shown after the line, or nothing. -/
def errorOf : Option Line → String
  | some l => if l.isError then l.value else ""
  | none => ""

/-- The tokens that are shown after the line, or nothing. -/
def tokensOf : Option Line → String
  | some l => Token.displayAll (Token.scan l.entry)
  | none => ""

/-- What a session shows agrees with the evaluations since its history was last emptied, and with
its calculator. -/
structure Agrees (s : Session) (done : List Evaluation) : Prop where
  history : s.history = (done.map Evaluation.line).rtake maxLines
  error : s.error = errorOf s.history.getLast?
  tokens : s.tokens = tokensOf s.history.getLast?
  digits : s.calculator.digits = s.digits
  digits_le : s.digits ≤ maxDigits
  mode : s.calculator.mode = s.mode

theorem agrees_new : Agrees new [] where
  history := rfl
  error := rfl
  tokens := rfl
  digits := rfl
  digits_le := by decide
  mode := rfl

variable {s : Session} {done : List Evaluation}

/-- An evaluation leaves the settings of the calculator as they are. -/
theorem settings_evalInDetail (c : Calculator) (text : String) :
    (c.evalInDetail text).2.digits = c.digits ∧ (c.evalInDetail text).2.mode = c.mode := by
  simp only [Calculator.evalInDetail, Calculator.eval, Calculator.evaluate, Calculator.parse,
    Calculator.mode, Expr.mode_eval, and_self]

@[simp]
theorem keep_history (s : Session) (text : String) (o : Outcome) :
    (s.keep text o).history = remember s.history (.ofOutcome text o) := rfl

@[simp]
theorem keep_error (s : Session) (text : String) (o : Outcome) :
    (s.keep text o).error = errorOf (some (.ofOutcome text o)) := rfl

@[simp]
theorem keep_tokens (s : Session) (text : String) (o : Outcome) :
    (s.keep text o).tokens = o.tokens := rfl

@[simp]
theorem keep_digits (s : Session) (text : String) (o : Outcome) :
    (s.keep text o).digits = s.digits := rfl

@[simp]
theorem keep_mode (s : Session) (text : String) (o : Outcome) :
    (s.keep text o).mode = s.mode := rfl

@[simp]
theorem keep_calculator (s : Session) (text : String) (o : Outcome) :
    (s.keep text o).calculator = s.calculator := rfl

theorem getLast?_remember (xs : List Line) (l : Line) : (remember xs l).getLast? = some l := by
  simp [remember]

/-- An outcome becomes the last line. -/
theorem Agrees.keep (h : Agrees s done) (x : Evaluation) (calculator : Calculator)
    (hdigits : calculator.digits = s.digits) (hmode : calculator.mode = s.mode) :
    Agrees (Session.keep { s with calculator } x.text x.outcome) (done ++ [x]) where
  history := by
    rw [keep_history, List.map_append, List.map_singleton, ← remember_rtake, ← h.history]
    rfl
  error := by rw [keep_error, keep_history, getLast?_remember]
  tokens := by
    rw [keep_tokens, keep_history, getLast?_remember]
    rfl
  digits := by rwa [keep_calculator, keep_digits]
  digits_le := by
    rw [keep_digits]
    exact h.digits_le
  mode := by rwa [keep_calculator, keep_mode]

theorem Agrees.evaluate (h : Agrees s done) :
    Agrees s.evaluate (done ++ s.evaluation?.toList) := by
  unfold Session.evaluate evaluation?
  by_cases hblank : Text.trim s.entry = ""
  · simpa [hblank] using h
  · obtain ⟨hdigits, hmode⟩ := settings_evalInDetail s.calculator (Text.trim s.entry)
    simp only [hblank, if_false, Option.toList_some]
    exact h.keep ⟨Text.trim s.entry, s.calculator⟩ _ (hdigits.trans h.digits) (hmode.trans h.mode)

/-- Without a history there are no error and no tokens. -/
theorem Agrees.clearHistory (h : Agrees s done) : Agrees s.clearHistory [] :=
  ⟨rfl, rfl, rfl, h.digits, h.digits_le, h.mode⟩

theorem Agrees.restart (h : Agrees s done) : Agrees s.restart [] where
  history := rfl
  error := rfl
  tokens := rfl
  digits := rfl
  digits_le := h.digits_le
  mode := rfl

theorem Agrees.setDigits (h : Agrees s done) (digits : Nat) : Agrees (s.setDigits digits) done :=
  ⟨h.history, h.error, h.tokens, rfl, Nat.min_le_right _ _, h.mode⟩

/-- One command keeps the agreement. -/
theorem Agrees.apply (h : Agrees s done) (c : Command) :
    Agrees (s.apply c) (s.nextEvaluations done c) := by
  cases c with
  | evaluate => exact h.evaluate
  | clearHistory => exact h.clearHistory
  | restart => exact h.restart
  | setDigits digits => exact h.setDigits digits
  | reuse index =>
      rw [Session.apply, reuse]
      split
      · exact ⟨h.history, h.error, h.tokens, h.digits, h.digits_le, h.mode⟩
      · exact h
  | setMode mode => exact ⟨h.history, h.error, h.tokens, h.digits, h.digits_le, rfl⟩
  | write _ | forget _ | setForm _ =>
      exact ⟨h.history, h.error, h.tokens, h.digits, h.digits_le, h.mode⟩

/-- So do commands one after the other. -/
theorem Agrees.applyAll (h : Agrees s done) (commands : List Command) :
    Agrees (s.applyAll commands) (s.evaluations done commands) := by
  induction commands generalizing s done with
  | nil => exact h
  | cons c rest ih => exact ih (h.apply c)

/-! ## The lines of the history -/

/-- Only a fraction is read in decimals. -/
theorem Evaluation.reading_line_isSome (x : Evaluation) :
    x.line.reading.isSome = true ↔ ∃ f, x.outcome.value = .fraction f := by
  have hreading :
      x.line.reading = (x.calculator.evalInDetail x.text).2.reading? x.outcome.value := by
    simp only [Evaluation.line, Line.ofOutcome, Evaluation.outcome, Calculator.evalInDetail]
  rw [hreading]
  cases x.outcome.value <;> simp [Calculator.reading?]

/-- No evaluation is of a blank text. -/
theorem text_ne_of_mem_evaluations {commands : List Command} {s : Session} {done : List Evaluation}
    (h : ∀ x ∈ done, x.text ≠ "") : ∀ x ∈ s.evaluations done commands, x.text ≠ "" := by
  induction commands generalizing s done with
  | nil => exact h
  | cons c rest ih =>
      refine ih fun x hx => ?_
      cases c with
      | evaluate =>
          rcases List.mem_append.1 hx with hold | hnew
          · exact h x hold
          · rw [Option.mem_toList, evaluation?] at hnew
            split at hnew
            · cases hnew
            · cases hnew
              assumption
      | clearHistory | restart => cases hx
      | write _ | reuse _ | forget _ | setDigits _ | setMode _ | setForm _ => exact h x hx

theorem exists_of_mem_rtake {n : Nat} {l : Line} (h : l ∈ (done.map Evaluation.line).rtake n) :
    ∃ x ∈ done, x.line = l :=
  List.mem_map.1 (List.mem_of_mem_drop h)

/-- The pieces of a session agree after any commands. The history is made of the last evaluations of
texts that are not blank since it was last emptied, the oldest first and at most as many as it
takes. The error is that of the last line and the tokens are those of its text, and both are empty
without a line. A line has a decimal reading only where its value is a fraction. The number of
digits is within its limit, and it and the mode are those of the calculator. -/
theorem agreement_of_commands (commands : List Command) :
    let s := new.applyAll commands
    let done := new.evaluations [] commands
    s.history = (done.map Evaluation.line).rtake maxLines ∧
      s.history.map Line.entry = (done.map Evaluation.text).rtake maxLines ∧
      s.history.length = min maxLines done.length ∧
      (∀ x ∈ done, x.text ≠ "") ∧
      s.error = errorOf s.history.getLast? ∧
      s.tokens = tokensOf s.history.getLast? ∧
      (∀ l ∈ s.history, l.reading.isSome = true →
        ∃ x ∈ done, x.line = l ∧ ∃ f, x.outcome.value = .fraction f) ∧
      s.digits ≤ maxDigits ∧ s.calculator.digits = s.digits ∧ s.calculator.mode = s.mode := by
  intro s done
  have h : Agrees s done := agrees_new.applyAll commands
  have htext : ∀ x ∈ done, x.text ≠ "" := text_ne_of_mem_evaluations (by simp)
  clear_value s done
  have hentry : (done.map Evaluation.line).map Line.entry = done.map Evaluation.text := by
    rw [List.map_map]
    rfl
  have hentries : s.history.map Line.entry = (done.map Evaluation.text).rtake maxLines := by
    rw [h.history, List.rtake, List.map_drop, hentry, List.rtake, List.length_map, List.length_map]
  have hlength : s.history.length = min maxLines done.length := by
    rw [h.history, length_rtake, List.length_map]
  have hreading : ∀ l ∈ s.history, l.reading.isSome = true →
      ∃ x ∈ done, x.line = l ∧ ∃ f, x.outcome.value = .fraction f := by
    intro l hl hsome
    rw [h.history] at hl
    obtain ⟨x, hx, rfl⟩ := exists_of_mem_rtake hl
    exact ⟨x, hx, rfl, x.reading_line_isSome.1 hsome⟩
  exact ⟨h.history, hentries, hlength, htext, h.error, h.tokens,
    hreading, h.digits_le, h.digits, h.mode⟩

/-- A fraction, a blank line, a failure and too many digits. -/
theorem agreement_of_failing_line :
    let s := new.applyAll [.write " 1/3 ", .evaluate, .write " ", .evaluate, .write "1+", .evaluate,
      .setDigits 300]
    s.history.map Line.entry = ["1/3", "1+"] ∧
      s.history.map (fun l => l.reading.isSome) = [true, false] ∧
      s.error = errorOf s.history.getLast? ∧ s.error ≠ "" ∧
      s.tokens = tokensOf s.history.getLast? ∧
      s.digits = 200 ∧ s.calculator.digits = s.digits := by
  obtain ⟨-, hentries, -, -, herror, htokens, -, -, hdigits, -⟩ :=
    agreement_of_commands [.write " 1/3 ", .evaluate, .write " ", .evaluate, .write "1+", .evaluate,
      .setDigits 300]
  exact ⟨hentries.trans (by decide +kernel), by decide +kernel, herror, by decide +kernel, htokens,
    by decide +kernel, hdigits⟩

end Session

end Reckoner
