import Reckoner.Proofs.Parser.Reading

/-!
Calls of functions by name.

A call has a level of its own, on which its arguments are collected as trees. The invariant of
reading its arguments is that the collected trees are those of the arguments read so far, with the
numbers of all names met since.
-/
namespace Reckoner

namespace Grammar

open Reckoner.Parser

variable {v : Vocabulary} {n n' : Names}

/-- A function that takes the arguments builds the tree of the call. -/
theorem build_eq_callTree (hv : v.functions.HasOperators) {id : FunctionId} {f : NamedFunction}
    {args : List Expr} (hget : v.functions.get? id = some f)
    (hcount : f.arity.accepts args.length = true) :
    build f id args = .ok (callTree id args) := by
  by_cases hid : id = Standard.assignment
  · obtain rfl : BinaryOperator.assign.description = f := by
      have hassign := hv.operator .assign
      rw [hid] at hget
      exact Option.some.inj (hassign.symm.trans hget)
    have harity : BinaryOperator.assign.description.arity = .exactly 2 := rfl
    have hlength : args.length = 2 := by simpa [harity, Arity.accepts] using hcount
    match args, hlength with
    | [target, value], _ =>
        rw [callTree, if_pos hid]
        rfl
  · have hplain : callTree id args = .call id args := by
      unfold callTree
      split
      · rw [if_neg hid]
      · rfl
    rw [build, NamedFunction.build, hv.plain hget hid, hplain]

@[simp] theorem argumentsOf_append_ofExpr (tokens : List Token) (e : Expr) (position : Nat) :
    argumentsOf (tokens ++ [.ofExpr e position]) = (argumentsOf tokens).map (· ++ [e]) := by
  induction tokens with
  | nil => rfl
  | cons t rest ih =>
      rw [List.cons_append, argumentsOf, argumentsOf, ih]
      cases t.kind <;> cases argumentsOf rest <;> rfl

/-- The level of a call that waits for `callee`, with the trees collected so far. -/
structure Collects (callee : Token) (level : Level) (done : List Expr) : Prop where
  isCall : level.isCall = true
  pending : level.pending = [callee]
  arguments : argumentsOf level.output = .ok done

theorem Collects.push {callee : Token} {level : Level} {done : List Expr}
    (h : Collects callee level done) (e : Expr) (position : Nat) :
    Collects callee (level.push (.ofExpr e position)) (done ++ [e]) where
  isCall := h.isCall
  pending := h.pending
  arguments := by
    rw [Level.push, argumentsOf_append_ofExpr, h.arguments]
    rfl

/-- What is known of the name before the parenthesis of a call. -/
structure Callable (v : Vocabulary) (callee : Token) (id : FunctionId) (f : NamedFunction) :
    Prop where
  find : v.functions.findRegular? callee.text = some id
  get : v.functions.get? id = some f

theorem Collects.reduceCall {callee : Token} {level : Level} {done : List Expr} {id : FunctionId}
    {f : NamedFunction} (hv : v.functions.HasOperators) (hcallee : Callable v callee id f)
    (hcount : f.arity.accepts done.length = true) (h : Collects callee level done) :
    reduceCall v level = .ok (callTree id done) := by
  have hbuild := build_eq_callTree hv hcallee.get hcount
  simp [Parser.reduceCall, h.pending, hcallee.find, hcallee.get, h.arguments, hcount, hbuild]

theorem reduceInner_of_ne_nil {l : Level} (h : l.finished ≠ []) (inCall : Bool) :
    reduceInner v inCall l =
      reduce v l.start l.finished >>= fun e => pure [.ofExpr e l.start] := by
  simp [reduceInner, h]

/-- The last parenthesis of a call makes the call an operand of the level around it. -/
theorem yields_close_call {callee : Token} {s : State} {level base : Level} {outer : List Level}
    {done : List Expr} {inner : List Token} {id : FunctionId} {f : NamedFunction}
    (hv : v.functions.HasOperators) (hcallee : Callable v callee id f)
    (hcount : f.arity.accepts done.length = true) (houter : s.outer = level :: base :: outer)
    (hisCall : level.isCall = true)
    (hcollects : Collects callee { level with output := level.output ++ inner } done)
    (hinner : Yields (reduceInner v true s.current) n inner n') (position : Nat) :
    Yields (s.close v position) n
      { s with current := base.push (.ofExpr (callTree id done) level.start), outer } n' := by
  have hcall := hcollects.reduceCall hv hcallee hcount
  simp only [State.close, houter]
  rw [hisCall] at hcall ⊢
  refine hinner.bind ?_
  simp [hcall]

/-- A comma ends an argument. -/
theorem yields_nextArgument {s : State} {level : Level} {outer : List Level} {e : Expr}
    (houter : s.outer = level :: outer) (hisCall : level.isCall = true)
    (hreduce : Yields (reduce v s.current.start s.current.finished) n e n') (position : Nat) :
    Yields (s.nextArgument v position) n
      { s with
        current := { start := position }
        outer := level.push (.ofExpr e s.current.start) :: outer } n' := by
  simp only [State.nextArgument, houter, hisCall, if_true]
  exact hreduce.bind (yields_pure.2 ⟨rfl, rfl⟩)

theorem step_comma {comma : Token} (h : comma.kind = .comma) {s : State} (hs : s.callee = none)
    (next : Option Token) : step v s comma next = s.nextArgument v comma.position := by
  rw [step, h, hs]

/-- Reading the arguments of a call up to its closing parenthesis. -/
theorem yields_arguments (hv : v.functions.HasOperators) {callee closing : Token}
    {id : FunctionId} {f : NamedFunction} (hcallee : Callable v callee id f)
    (hclosing : closing.kind = .rparen) {args : List (List Token × NamedTree)}
    {inner : List Token} (hinner : Separated (args.map Prod.fst) inner) (hargs : args ≠ [])
    (hreads : ∀ arg ∈ args, arg.1 ≠ [] ∧ Reads v 1 arg.1 arg.2) :
    ∀ (level base : Level) (outer : List Level) (done : List Expr) (start : Nat) (n : Names),
      Collects callee level done → f.arity.accepts (done.length + args.length) = true →
      ∃ n' : Names, n.Extends n' ∧ (∀ arg ∈ args, Settled arg.2 n') ∧
        Yields (run v { current := { start }, outer := level :: base :: outer } (inner ++ [closing]))
          n
          { current := base.push (.ofExpr
              (callTree id (done ++ args.map fun arg => arg.2 n'.number)) level.start)
            outer } n' := by
  induction args generalizing inner with
  | nil => exact absurd rfl hargs
  | cons arg args ih =>
      intro level base outer done start n hlevel hcount
      obtain ⟨hne, harg⟩ := hreads arg (by simp)
      obtain ⟨s', n₁, n₂, hn₂, hsettled, houter, hnone, hstart, hfinished, hyields, hreduce⟩ :=
        harg.yields_level (s := { current := { start }, outer := level :: base :: outer }) rfl rfl n
      rw [← hstart] at hreduce
      cases args with
      | nil =>
          obtain rfl : arg.1 = inner := by
            cases hinner
            rfl
          have hall := hlevel.push (arg.2 n₂.number) start
          have hclose := yields_close_call hv hcallee (by simpa using hcount) houter hlevel.isCall
            hall (by
              rw [reduceInner_of_ne_nil hfinished]
              exact hreduce.bind (yields_pure.2 ⟨by rw [hstart], rfl⟩)) closing.position
          refine ⟨n₂, hn₂, by simpa using hsettled, ?_⟩
          rw [run_append_cons hne (by rw [hclosing]; rfl) (by rw [hclosing]; rfl)]
          refine hyields.bind ?_
          rw [run_singleton, step_closing hclosing hnone]
          simpa [hnone] using hclose
      | cons arg' args =>
          obtain ⟨comma, inner', hcomma, hinner', rfl⟩ : ∃ (comma : Token) (inner' : List Token),
              comma.kind = .comma ∧ Separated ((arg' :: args).map Prod.fst) inner' ∧
              inner = arg.1 ++ comma :: inner' := by
            cases hinner with
            | cons hcomma hinner => exact ⟨_, _, hcomma, hinner, rfl⟩
          obtain ⟨n₃, hn₃, hsettled', hrest⟩ := ih hinner' (by simp)
            (fun arg harg => hreads arg (by simp [harg]))
            (level.push (.ofExpr (arg.2 n₂.number) start)) base outer (done ++ [arg.2 n₂.number])
            comma.position n₂ (hlevel.push _ _) (by simpa [Nat.add_assoc, Nat.add_comm 1] using hcount)
          have hnext := yields_nextArgument houter hlevel.isCall hreduce comma.position
          refine ⟨n₃, hn₂.trans hn₃, ?_, ?_⟩
          · intro arg₁ harg₁
            rcases List.mem_cons.1 harg₁ with rfl | harg₁
            · exact hsettled.extends hn₃
            · exact hsettled' arg₁ harg₁
          · rw [List.append_assoc, List.cons_append,
              run_append_cons hne (by rw [hcomma]; rfl) (by rw [hcomma]; rfl)]
            refine hyields.bind ?_
            rw [run_cons, step_comma hcomma hnone]
            refine hnext.bind ?_
            have hlast := hsettled n₃ hn₃
            simpa [hnone, hstart, hlast, Level.push] using hrest

end Grammar

end Reckoner
