import Reckoner.Proofs.Session.History

/-!
A restart forgets everything but the settings.

A session that has restarted is the new session on which nothing has been done but to make its
settings again. So two sessions with the same settings cannot be told apart by anything that happens
after a restart. Between two evaluations, only forgetting a value and restarting touch the variables.
-/
namespace Reckoner

namespace Session

/-- What outlives a restart. -/
structure Settings where
  form : Form
  digits : Nat
  mode : Mode
deriving DecidableEq, Repr

/-- The settings of a session. -/
def settings (s : Session) : Settings :=
  ⟨s.form, s.digits, s.mode⟩

/-- The commands that make these settings. -/
def Settings.commands (x : Settings) : List Command :=
  [.setForm x.form, .setDigits x.digits, .setMode x.mode]

variable {s s' : Session}

theorem applyAll_append (s : Session) (commands later : List Command) :
    s.applyAll (commands ++ later) = (s.applyAll commands).applyAll later :=
  List.foldl_append

/-! ## Restarting -/

/-- The number of digits is within its limit, whatever has happened. -/
theorem digits_applyAll_le (commands : List Command) :
    (new.applyAll commands).digits ≤ maxDigits :=
  (agrees_new.applyAll commands).digits_le

/-- Making the mode and the number of digits on a new calculator, or beginning with them. -/
theorem setMode_setDigits_new (mode mode' : Mode) (digits digits' : Nat) :
    ((Calculator.new (options mode digits)).setDigits digits').setMode mode' =
      Calculator.new (options mode' digits') :=
  rfl

/-- A session that restarts is a new one with the same settings. -/
theorem restart_eq_new (h : s.digits ≤ maxDigits) :
    s.restart = new.applyAll s.settings.commands := by
  have hdigits : min s.digits maxDigits = s.digits := Nat.min_eq_left h
  simp only [restart, clearHistory, new, applyAll, Settings.commands, settings, List.foldl_cons,
    List.foldl_nil, apply, setDigits, setMode, setMode_setDigits_new, hdigits]

/-- What happens after a restart is what would have happened to a new session. -/
theorem applyAll_restart (before later : List Command) :
    new.applyAll (before ++ .restart :: later) =
      new.applyAll ((new.applyAll before).settings.commands ++ later) := by
  rw [applyAll_append, applyAll_append, ← restart_eq_new (digits_applyAll_le before)]
  rfl

/-! ## Variables -/

/-- The command neither evaluates nor forgets anything. -/
def Command.keepsVariables : Command → Bool
  | .write _ | .reuse _ | .clearHistory | .setDigits _ | .setMode _ | .setForm _ => true
  | .evaluate | .restart | .forget _ => false

/-- Both sessions know the same variables by the same numbers and with the same values. -/
structure SameVariables (s s' : Session) : Prop where
  names : s'.calculator.names = s.calculator.names
  values : ∀ id, s'.calculator.value? id = s.calculator.value? id

theorem SameVariables.refl (s : Session) : SameVariables s s :=
  ⟨rfl, fun _ => rfl⟩

theorem SameVariables.trans {s'' : Session} (h : SameVariables s s') (h' : SameVariables s' s'') :
    SameVariables s s'' :=
  ⟨h'.names.trans h.names, fun id => (h'.values id).trans (h.values id)⟩

/-- So they show the same list of variables. -/
theorem SameVariables.variableList (h : SameVariables s s') :
    s'.variableList = s.variableList := by
  have hvalues : s'.calculator.value? = s.calculator.value? := funext h.values
  rw [Session.variableList, Session.variableList, Calculator.variableList, Calculator.variableList,
    h.names, hvalues]

theorem sameVariables_apply (s : Session) {c : Command} (hc : c.keepsVariables = true) :
    SameVariables s (s.apply c) := by
  cases c with
  | write text => exact ⟨rfl, fun _ => rfl⟩
  | reuse index =>
      rw [apply, reuse]
      split
      · exact ⟨rfl, fun _ => rfl⟩
      · exact .refl s
  | clearHistory => exact ⟨rfl, fun _ => rfl⟩
  | setDigits digits => exact ⟨rfl, fun _ => rfl⟩
  | setMode mode => exact ⟨rfl, fun _ => rfl⟩
  | setForm form => exact ⟨rfl, fun _ => rfl⟩
  | evaluate => cases hc
  | restart => cases hc
  | forget id => cases hc

/-- The variables are the same after any such commands. -/
theorem sameVariables_applyAll (s : Session) {commands : List Command}
    (h : ∀ c ∈ commands, c.keepsVariables = true) : SameVariables s (s.applyAll commands) := by
  induction commands generalizing s with
  | nil => exact .refl s
  | cons c rest ih =>
      have hfirst := sameVariables_apply s (h c List.mem_cons_self)
      exact hfirst.trans (ih (s.apply c) fun c hc => h c (List.mem_cons_of_mem _ hc))

/-- A restart leaks nothing of what was before it but the settings. After a restart, sessions with
the same settings stay the same, whatever commands follow: each is what a new session becomes by the
same commands after its settings have been made. And commands that neither evaluate nor forget
change no number, name or value of a variable, at any time. -/
theorem restart_forgets (before before' : List Command)
    (h : (new.applyAll before).settings = (new.applyAll before').settings) :
    (∀ later, new.applyAll (before ++ .restart :: later) =
        new.applyAll (before' ++ .restart :: later) ∧
      new.applyAll (before ++ .restart :: later) =
        new.applyAll ((new.applyAll before).settings.commands ++ later)) ∧
      ∀ (s : Session) (commands : List Command), (∀ c ∈ commands, c.keepsVariables = true) →
        SameVariables s (s.applyAll commands) ∧
          (s.applyAll commands).variableList = s.variableList := by
  refine ⟨fun later => ⟨?_, applyAll_restart before later⟩, fun s commands hcommands => ?_⟩
  · rw [applyAll_restart, applyAll_restart, h]
  · have hsame := sameVariables_applyAll s hcommands
    exact ⟨hsame, hsame.variableList⟩

/-- Two sessions with different variables and the same settings; after a restart the second variable
of either is met anew, as the first one, and the value of the first one is gone. -/
theorem restart_forgets_third :
    let before := [.write "x = 1/3", .evaluate, .write "y = x", .evaluate, .setDigits 300]
    let before' := [.write "z = 2", .evaluate, .setDigits 200, .reuse 0]
    let later := [.write "y = 2", .evaluate, .write "x", .evaluate]
    (new.applyAll before).settings = (new.applyAll before').settings ∧
      (new.applyAll before).variableList ≠ (new.applyAll before').variableList ∧
      new.applyAll (before ++ .restart :: later) = new.applyAll (before' ++ .restart :: later) ∧
      (new.applyAll (before ++ .restart :: later)).variableList =
        [(1, "y", some "2"), (2, "x", none)] ∧
      SameVariables (new.applyAll before)
        ((new.applyAll before).applyAll [.reuse 0, .clearHistory, .setMode .float]) := by
  intro before before' later
  have h : (new.applyAll before).settings = (new.applyAll before').settings := by decide +kernel
  obtain ⟨hrestart, hquiet⟩ := restart_forgets before before' h
  exact ⟨h, by decide +kernel, (hrestart later).1, by decide +kernel,
    (hquiet (new.applyAll before) [.reuse 0, .clearHistory, .setMode .float] (by decide)).1⟩

end Session

end Reckoner
