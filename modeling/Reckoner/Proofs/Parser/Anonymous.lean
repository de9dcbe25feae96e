import Reckoner.Proofs.Parser.Errors

/-!
What is read does not depend on the numbers of variables.

`anonymous` forgets the numbers of all variables in a tree. Whatever names have been met before, a
list of tokens has the same tree but for the numbers of its variables, or the same error. The parser
looks at the trees of operands only for the functions that they call, so each of its steps gives on
a state without numbers what it gives on the state itself.
-/
namespace Reckoner

namespace Expr

mutual

/-- The tree without the numbers of its variables. -/
def anonymous : Expr → Expr
  | literal v => literal v
  | var name _ => var name 0
  | constant name v => constant name v
  | call id arguments => call id (anonymousAll arguments)
  | assign target value => assign target.anonymous value.anonymous

/-- Several trees without the numbers of their variables. -/
def anonymousAll : List Expr → List Expr
  | [] => []
  | e :: rest => e.anonymous :: anonymousAll rest

end

theorem anonymousAll_eq_map (es : List Expr) : anonymousAll es = es.map anonymous := by
  induction es with
  | nil => rfl
  | cons e rest ih => rw [anonymousAll, ih, List.map_cons]

@[simp]
theorem anonymous_call (id : FunctionId) (arguments : List Expr) :
    (call id arguments).anonymous = call id (arguments.map anonymous) := by
  rw [anonymous, anonymousAll_eq_map]

@[simp]
theorem anonymous_callTree (id : FunctionId) (arguments : List Expr) :
    (callTree id arguments).anonymous = callTree id (arguments.map anonymous) := by
  rcases arguments with _ | ⟨a, _ | ⟨b, _ | ⟨c, rest⟩⟩⟩
  · exact anonymous_call id _
  · exact anonymous_call id _
  · simp only [callTree, List.map_cons, List.map_nil]
    split
    · rw [anonymous]
    · exact anonymous_call id _
  · exact anonymous_call id _

mutual

/-- There is nothing more to forget. -/
@[simp]
theorem anonymous_anonymous : ∀ e : Expr, e.anonymous.anonymous = e.anonymous
  | .literal _ | .constant _ _ | .var _ _ => by simp only [anonymous]
  | .call _ arguments => by simp only [anonymous, anonymousAll_anonymousAll arguments]
  | .assign target value => by
      simp only [anonymous, anonymous_anonymous target, anonymous_anonymous value]

theorem anonymousAll_anonymousAll : ∀ es : List Expr,
    anonymousAll (anonymousAll es) = anonymousAll es
  | [] => rfl
  | e :: rest => by
      simp only [anonymousAll, anonymous_anonymous e, anonymousAll_anonymousAll rest]

end

end Expr

/-- The kind of a token without the numbers of variables. -/
def TokenKind.anonymous : TokenKind → TokenKind
  | tree e => tree e.anonymous
  | kind => kind

/-- The token without the numbers of variables. -/
def Token.anonymous (t : Token) : Token :=
  { t with kind := t.kind.anonymous }

namespace Token

@[simp]
theorem text_anonymous (t : Token) : t.anonymous.text = t.text := rfl

@[simp]
theorem position_anonymous (t : Token) : t.anonymous.position = t.position := rfl

@[simp]
theorem anonymous_anonymous (t : Token) : t.anonymous.anonymous = t.anonymous := by
  rcases t with ⟨kind, text, position⟩
  cases kind with
  | tree e => simp only [anonymous, TokenKind.anonymous, Expr.anonymous_anonymous]
  | _ => rfl

@[simp]
theorem anonymous_ofExpr (e : Expr) (position : Nat) :
    (ofExpr e position).anonymous = ofExpr e.anonymous position := rfl

end Token

namespace Parser

/-- The level without the numbers of variables. -/
def Level.anonymous (l : Level) : Level :=
  { l with output := l.output.map Token.anonymous, pending := l.pending.map Token.anonymous }

/-- The state without the numbers of variables. -/
def State.anonymous (s : State) : State :=
  { current := s.current.anonymous
    outer := s.outer.map Level.anonymous
    callee := s.callee.map Token.anonymous }

/-! ## Steps that are alike -/

section Alike

variable {α β γ δ : Type}

/-- What comes of a step, as far as `view` shows it, without the names. -/
def outcome (view : α → γ) (m : Parsing α) (n : Names) : Except ParseError γ :=
  match m.run n with
  | .ok a _ => .ok (view a)
  | .error e _ => .error e

/-- The same comes of both steps as far as `view` shows it, whatever names have been met before
either. -/
def Alike (view : α → γ) (m m' : Parsing α) : Prop :=
  ∀ n n', outcome view m n = outcome view m' n'

variable {view : α → γ} {view' : β → δ} {m m' m'' : Parsing α} {f g : α → Parsing β}

theorem alike_pure {a b : α} (h : view a = view b) : Alike view (pure a) (pure b) :=
  fun _ _ => congrArg Except.ok h

theorem alike_throw (e : ParseError) : Alike view (throw e) (throw e) :=
  fun _ _ => rfl

theorem Alike.symm (h : Alike view m m') : Alike view m' m :=
  fun n n' => (h n' n).symm

theorem Alike.trans (h : Alike view m m') (h' : Alike view m' m'') : Alike view m m'' :=
  fun n n' => (h n n).trans (h' n n')

theorem Alike.bind (hm : Alike view m m')
    (hf : ∀ a b, view a = view b → Alike view' (f a) (g b)) :
    Alike view' (m >>= f) (m' >>= g) := by
  intro n n'
  have hfirst := hm n n'
  unfold outcome at hfirst ⊢
  rw [EStateM.run_bind, EStateM.run_bind]
  cases hrun : m.run n with
  | error e n₁ =>
      rw [hrun] at hfirst
      cases hrun' : m'.run n' with
      | error e' n₂ =>
          rw [hrun'] at hfirst
          cases hfirst
          rfl
      | ok b n₂ =>
          rw [hrun'] at hfirst
          cases hfirst
  | ok a n₁ =>
      rw [hrun] at hfirst
      cases hrun' : m'.run n' with
      | error e' n₂ =>
          rw [hrun'] at hfirst
          cases hfirst
      | ok b n₂ =>
          rw [hrun'] at hfirst
          exact hf a b (Except.ok.inj hfirst) n₁ n₂

/-- A step that is alike without the numbers is alike where only numbers differ. -/
theorem alike_of_eq {forget : α → α} (hf : ∀ a, Alike view' (f a) (f (forget a))) {a b : α}
    (h : forget a = forget b) : Alike view' (f a) (f b) :=
  (hf a).trans (h ▸ (hf b).symm)

end Alike

/-! ## Reduction -/

variable {v : Vocabulary}

open Reckoner.Expr (anonymous)
open Grammar (build_eq_callTree)

@[simp]
theorem operator?_anonymous (t : Token) : operator? v t.anonymous = operator? v t := by
  rcases t with ⟨kind, text, position⟩
  cases kind <;> rfl

theorem alike_operand (t : Token) : Alike anonymous (operand v t) (operand v t.anonymous) := by
  rcases t with ⟨kind, text, position⟩
  cases kind with
  | int n => exact alike_pure rfl
  | double x => exact alike_pure rfl
  | tree e => exact alike_pure e.anonymous_anonymous.symm
  | ident name =>
      have hname : Alike anonymous (operand v ⟨.ident name, text, position⟩)
          (operand v ⟨.ident name, text, position⟩) := by
        unfold operand
        dsimp only
        cases v.constant? name with
        | some c => exact alike_pure rfl
        | none => exact fun n n' => rfl
      exact hname
  | _ => exact alike_throw _

theorem build_map (hv : v.functions.HasOperators) {id : FunctionId} {f : NamedFunction}
    {arguments : List Expr} (hget : v.functions.get? id = some f)
    (hcount : f.arity.accepts arguments.length = true) :
    build f id (arguments.map anonymous) = (build f id arguments).map anonymous := by
  rw [build_eq_callTree hv hget (by rwa [List.length_map]), build_eq_callTree hv hget hcount]
  exact congrArg Except.ok (Expr.anonymous_callTree id arguments).symm

theorem extend?_map (f : NamedFunction) (id : FunctionId) (stack : List Expr) :
    extend? f id (stack.map anonymous) = (extend? f id stack).map (List.map anonymous) := by
  rcases stack with _ | ⟨b, _ | ⟨a, rest⟩⟩
  · rfl
  · rfl
  · cases a with
    | call g arguments =>
        simp only [List.map_cons, Expr.anonymous_call, extend?]
        split
        · simp
        · rfl
    | _ => simp only [List.map_cons, anonymous, extend?, Option.map_none]

theorem apply_map (hv : v.functions.HasOperators) {id : FunctionId} {f : NamedFunction}
    (hget : v.functions.get? id = some f) (t : Token) (stack : List Expr) :
    apply f id t (stack.map anonymous) = (apply f id t stack).map (List.map anonymous) := by
  unfold apply
  rw [extend?_map]
  cases extend? f id stack with
  | some stack' => rfl
  | none =>
      have hone : ∀ b, f.arity.accepts 1 = true →
          build f id [b.anonymous] = (build f id [b]).map anonymous :=
        fun b hcount => build_map hv hget (show f.arity.accepts [b].length = true from hcount)
      have htwo : ∀ a b, f.arity.accepts 2 = true →
          build f id [a.anonymous, b.anonymous] = (build f id [a, b]).map anonymous :=
        fun a b hcount => build_map hv hget (show f.arity.accepts [a, b].length = true from hcount)
      dsimp only [Option.map_none]
      rcases stack with _ | ⟨b, _ | ⟨a, rest⟩⟩
      · rfl
      · simp only [List.map_cons, List.map_nil]
        split
        · next hcount =>
            rw [hone b (by simp_all)]
            cases build f id [b] <;> rfl
        · rfl
      · simp only [List.map_cons]
        split
        · next hcount =>
            rw [htwo a b hcount]
            cases build f id [a, b] <;> rfl
        · split
          · next hcount =>
              rw [hone b (by simp_all)]
              cases build f id [b] <;> rfl
          · rfl

theorem alike_reduceToken (hv : v.functions.HasOperators) (stack : List Expr) (t : Token) :
    Alike (List.map anonymous) (reduceToken v stack t)
      (reduceToken v (stack.map anonymous) t.anonymous) := by
  unfold reduceToken
  rw [operator?_anonymous]
  cases hoperator : operator? v t with
  | some pair =>
      obtain ⟨id, f⟩ := pair
      have hsame : apply f id t.anonymous (stack.map anonymous) =
          apply f id t (stack.map anonymous) := rfl
      dsimp only
      rw [hsame, apply_map hv (Grammar.get?_of_operator? hoperator)]
      cases apply f id t stack with
      | ok stack' => exact alike_pure (by simp)
      | error e => exact alike_throw e
  | none =>
      exact (alike_operand t).bind fun a b hab => alike_pure (by simp [hab])

/-- Stacks that differ in numbers only are reduced alike. -/
theorem alike_foldlM (hv : v.functions.HasOperators) (tokens : List Token)
    {stack stack' : List Expr} (h : stack.map anonymous = stack'.map anonymous) :
    Alike (List.map anonymous) (tokens.foldlM (reduceToken v) stack)
      ((tokens.map Token.anonymous).foldlM (reduceToken v) stack') := by
  induction tokens generalizing stack stack' with
  | nil => exact alike_pure h
  | cons t rest ih =>
      rw [List.map_cons, List.foldlM_cons, List.foldlM_cons]
      refine Alike.bind ?_ fun a b hab => ih hab
      have hright := alike_reduceToken hv stack' t.anonymous
      rw [Token.anonymous_anonymous, ← h] at hright
      exact (alike_reduceToken hv stack t).trans hright.symm

/-- A level is reduced to one tree. -/
def single (start : Nat) : List Expr → Parsing Expr
  | [e] => return e
  | _ => throw (.missingOperator start)

theorem alike_single (start : Nat) (stack : List Expr) :
    Alike anonymous (single start stack) (single start (stack.map anonymous)) := by
  rcases stack with _ | ⟨a, _ | ⟨b, rest⟩⟩
  · exact alike_throw _
  · exact alike_pure a.anonymous_anonymous.symm
  · exact alike_throw _

theorem alike_reduce (hv : v.functions.HasOperators) (start : Nat) (tokens : List Token) :
    Alike anonymous (reduce v start tokens) (reduce v start (tokens.map Token.anonymous)) := by
  cases tokens with
  | nil => exact alike_throw _
  | cons t rest =>
      exact (alike_foldlM hv (t :: rest) rfl).bind fun a b hab =>
        alike_of_eq (f := single start) (alike_single start) hab

/-! ## Levels -/

@[simp]
theorem Level.anonymous_anonymous (l : Level) : l.anonymous.anonymous = l.anonymous := by
  simp [anonymous, Function.comp_def]

@[simp]
theorem Level.finished_anonymous (l : Level) :
    l.anonymous.finished = l.finished.map Token.anonymous := by
  simp [anonymous, finished]

@[simp]
theorem Level.anonymous_push (l : Level) (t : Token) :
    (l.push t).anonymous = l.anonymous.push t.anonymous := by
  simp [anonymous, push]

@[simp]
theorem precedes_anonymous (precedence : Int) (t : Token) :
    precedes v precedence t.anonymous = precedes v precedence t := by
  rw [precedes, precedes, operator?_anonymous]

@[simp]
theorem Level.anonymous_pushOperator (l : Level) (t : Token) (precedence : Int) :
    (l.pushOperator v t precedence).anonymous =
      l.anonymous.pushOperator v t.anonymous precedence := by
  simp [anonymous, pushOperator, List.takeWhile_map, List.dropWhile_map, Function.comp_def]

theorem argumentsOf_map (tokens : List Token) :
    argumentsOf (tokens.map Token.anonymous) =
      (argumentsOf tokens).map (List.map Expr.anonymous) := by
  induction tokens with
  | nil => rfl
  | cons t rest ih =>
      rcases t with ⟨kind, text, position⟩
      cases kind with
      | tree e =>
          simp only [List.map_cons, Token.anonymous, TokenKind.anonymous, argumentsOf] at ih ⊢
          rw [ih]
          cases argumentsOf rest <;> rfl
      | _ => rfl

theorem reduceCall_anonymous (hv : v.functions.HasOperators) (l : Level) :
    reduceCall v l.anonymous = (reduceCall v l).map Expr.anonymous := by
  have hpending : l.anonymous.pending.getLast? = l.pending.getLast?.map Token.anonymous :=
    List.getLast?_map
  have houtput : argumentsOf l.anonymous.output =
      (argumentsOf l.output).map (List.map Expr.anonymous) := argumentsOf_map l.output
  unfold reduceCall
  rw [hpending, houtput]
  cases l.pending.getLast? with
  | none => rfl
  | some name =>
      simp only [Option.map_some, Token.text_anonymous, Token.position_anonymous]
      split
      · rfl
      · next id f hfound =>
          obtain ⟨id', -, hget⟩ := Option.bind_eq_some_iff.1 hfound
          obtain ⟨f', hget, hpair⟩ := Option.map_eq_some_iff.1 hget
          cases hpair
          cases argumentsOf l.output with
          | error e => rfl
          | ok arguments =>
              simp only [Except.map, List.length_map]
              split
              · next hcount => exact build_map hv hget hcount
              · rfl

theorem alike_reduceInner (hv : v.functions.HasOperators) (inCall : Bool) (l : Level) :
    Alike (List.map Token.anonymous) (reduceInner v inCall l)
      (reduceInner v inCall l.anonymous) := by
  unfold reduceInner
  rw [Level.finished_anonymous, List.isEmpty_map]
  split
  · exact alike_pure rfl
  · exact (alike_reduce hv l.start l.finished).bind fun a b hab => alike_pure (by
      simp only [List.map_cons, List.map_nil, Token.anonymous_ofExpr, hab]
      rfl)

/-! ## States -/

@[simp]
theorem State.anonymous_anonymous (s : State) : s.anonymous.anonymous = s.anonymous := by
  simp [anonymous, Function.comp_def]

@[simp]
theorem Level.start_anonymous (l : Level) : l.anonymous.start = l.start := rfl

@[simp]
theorem Level.isCall_anonymous (l : Level) : l.anonymous.isCall = l.isCall := rfl

theorem map_anonymous_map (ls : List Level) :
    (ls.map Level.anonymous).map Level.anonymous = ls.map Level.anonymous := by
  simp [Function.comp_def]

theorem alike_operator (s : State) (t : Token) :
    Alike State.anonymous (s.operator v t) (s.anonymous.operator v t) := by
  unfold State.operator
  cases operator? v t with
  | none => exact alike_throw _
  | some pair => exact alike_pure (by simp [State.anonymous, Function.comp_def])

theorem alike_nextArgument (hv : v.functions.HasOperators) (s : State) (position : Nat) :
    Alike State.anonymous (s.nextArgument v position) (s.anonymous.nextArgument v position) := by
  rcases s with ⟨current, _ | ⟨call, outer⟩, callee⟩
  · exact alike_throw _
  · simp only [State.nextArgument, State.anonymous, List.map_cons, Level.finished_anonymous,
      Level.isCall_anonymous, Level.start_anonymous]
    split
    · refine (alike_reduce hv current.start current.finished).bind fun a b hab => alike_pure ?_
      simp [State.anonymous, hab, Function.comp_def]
    · exact alike_throw _

/-- The state after a level has been closed, where `level` is the one around it. -/
def closed (v : Vocabulary) (s : State) (outer : List Level) (position : Nat) (level : Level) :
    Parsing State :=
  if level.isCall then
    match reduceCall v level with
    | .error e => throw e
    | .ok call =>
      match outer with
      | [] => throw (.extraClose position)
      | base :: outer =>
        return { s with current := base.push (.ofExpr call level.start), outer }
  else
    return { s with current := level, outer }

theorem alike_closed (hv : v.functions.HasOperators) (s : State) (outer : List Level)
    (position : Nat) (level : Level) :
    Alike State.anonymous (closed v s outer position level)
      (closed v s.anonymous (outer.map Level.anonymous) position level.anonymous) := by
  unfold closed
  rw [Level.isCall_anonymous, Level.start_anonymous, reduceCall_anonymous hv]
  split
  · cases reduceCall v level with
    | error e => exact alike_throw e
    | ok call =>
        cases outer with
        | nil => exact alike_throw _
        | cons base rest => exact alike_pure (by simp [State.anonymous, Function.comp_def])
  · exact alike_pure (by simp [State.anonymous, Function.comp_def])

theorem alike_close (hv : v.functions.HasOperators) (s : State) (position : Nat) :
    Alike State.anonymous (s.close v position) (s.anonymous.close v position) := by
  obtain ⟨current, outer, callee⟩ := s
  cases outer with
  | nil => exact alike_throw _
  | cons enclosing outer =>
      refine (alike_reduceInner hv enclosing.isCall current).bind fun inner inner' h => ?_
      let s : State := ⟨current, enclosing :: outer, callee⟩
      let level : Level := { enclosing with output := enclosing.output ++ inner }
      let level' : Level :=
        { enclosing.anonymous with output := enclosing.anonymous.output ++ inner' }
      have hlevel : level'.anonymous = level.anonymous := by
        simp [level, level', Level.anonymous, h, Function.comp_def]
      have hright := alike_closed hv s.anonymous (outer.map Level.anonymous) position level'
      rw [State.anonymous_anonymous, map_anonymous_map, hlevel] at hright
      exact (alike_closed hv s outer position level).trans hright.symm

/-! ## Runs -/

theorem State.anonymous_openLevel (s : State) (position : Nat) :
    (s.anonymous.openLevel position).anonymous = (s.openLevel position).anonymous := by
  obtain ⟨current, outer, callee⟩ := s
  cases callee <;> simp [State.openLevel, State.anonymous, Level.anonymous, Function.comp_def]

theorem State.anonymous_push (s : State) (t : Token) :
    (s.anonymous.push t).anonymous = (s.push t).anonymous := by
  simp [State.push, State.anonymous, Function.comp_def]

theorem alike_push_operator (s : State) (t times : Token) :
    Alike State.anonymous ((s.push t).operator v times) ((s.anonymous.push t).operator v times) :=
  alike_of_eq (f := fun s => State.operator v s times) (fun s => alike_operator s times)
    (s.anonymous_push t).symm

/-- What comes of one more token does not depend on numbers. -/
theorem alike_step (hv : v.functions.HasOperators) (s : State) (t : Token) (next : Option Token) :
    Alike State.anonymous (step v s t next) (step v s.anonymous t next) := by
  have hpush : Alike State.anonymous (pure (s.push t)) (pure (s.anonymous.push t)) :=
    alike_pure (s.anonymous_push t).symm
  cases hcallee : s.callee with
  | some f =>
      have hright : s.anonymous.callee = some f.anonymous := by simp [State.anonymous, hcallee]
      unfold step
      rw [hcallee, hright]
      cases t.kind with
      | lparen => exact alike_pure (s.anonymous_openLevel _).symm
      | _ => exact alike_throw _
  | none =>
      have hright : s.anonymous.callee = none := by simp [State.anonymous, hcallee]
      unfold step
      rw [hcallee, hright]
      cases t.kind with
      | lparen => exact alike_pure (s.anonymous_openLevel _).symm
      | comma => exact alike_nextArgument hv s _
      | rparen => exact alike_close hv s _
      | ident name =>
          dsimp only
          split
          · split
            · exact alike_pure (by simp [State.anonymous, Function.comp_def])
            · exact alike_throw _
          · exact hpush
      | int n =>
          dsimp only
          split
          · exact alike_push_operator s t _
          · exact hpush
      | double x =>
          dsimp only
          split
          · exact alike_push_operator s t _
          · exact hpush
      | tree e => exact hpush
      | _ => exact alike_operator s t

theorem alike_run (hv : v.functions.HasOperators) (tokens : List Token) {s s' : State}
    (h : s.anonymous = s'.anonymous) :
    Alike State.anonymous (run v s tokens) (run v s' tokens) := by
  induction tokens generalizing s s' with
  | nil => exact alike_pure h
  | cons t rest ih =>
      rw [run, run]
      exact (alike_of_eq (fun s => alike_step hv s t rest.head?) h).bind fun a b hab => ih hab

/-- The tree of the text once it has been read to the end. -/
def finish (v : Vocabulary) (s : State) : Parsing Expr :=
  if s.outer.isEmpty then
    reduce v s.current.start s.current.finished
  else
    throw (.missingClose s.current.start)

theorem alike_finish (hv : v.functions.HasOperators) (s : State) :
    Alike Expr.anonymous (finish v s) (finish v s.anonymous) := by
  simp only [finish, State.anonymous, List.isEmpty_map, Level.finished_anonymous,
    Level.start_anonymous]
  split
  · exact alike_reduce hv _ _
  · exact alike_throw _

theorem alike_parseTokens (hv : v.functions.HasOperators) (tokens : List Token) :
    Alike Expr.anonymous (parseTokens v tokens) (parseTokens v tokens) := by
  cases tokens with
  | nil => exact alike_throw _
  | cons t rest =>
      exact (alike_run hv (t :: rest) rfl).bind fun a b hab => alike_of_eq (alike_finish hv) hab

/-- A text has the same tree but for the numbers of its variables, whatever names have been met. -/
theorem anonymous_read (hv : v.functions.HasOperators) (tokens : List Token) (n n' : Names) :
    (read v n tokens).1.anonymous = (read v n' tokens).1.anonymous := by
  have hread : ∀ n, (read v n tokens).1.anonymous =
      match outcome Expr.anonymous (parseTokens v tokens) n with
      | .ok e => e
      | .error err => .ofError err.toCalcError := by
    intro n
    unfold read parse outcome
    cases (parseTokens v tokens).run n with
    | ok e n₁ => rfl
    | error err n₁ =>
        dsimp only
        rw [Expr.ofError, Expr.anonymous]
  rw [hread, hread, alike_parseTokens hv tokens n n']

end Parser

end Reckoner
