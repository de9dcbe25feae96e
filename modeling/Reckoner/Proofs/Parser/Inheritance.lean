import Reckoner.Proofs.Parser.Errors
import Reckoner.Proofs.Parser.Trees

/-!
What holds of the trees of every vocabulary.

`TreeProperty` knows the fundamental operators. A host can redefine them, and then an operator builds
whatever its function does, so all that is asked of a property here is that the functions of the
vocabulary pass it on from arguments to trees, and that a call keeps it when it gets one more
argument.
-/
namespace Reckoner

namespace Parser

variable {v : Vocabulary} {Q : Expr → Prop} {n n' : Names}

/-- `Q` holds of leaves, and the functions of the vocabulary pass it on. -/
structure Inherited (v : Vocabulary) (Q : Expr → Prop) : Prop where
  literal : ∀ value, Q (.literal value)
  var : ∀ name id, Q (.var name id)
  constant : ∀ name value, Q (.constant name value)
  extend : ∀ {id : FunctionId} {args : List Expr} {e : Expr}, Q (.call id args) → Q e →
    Q (.call id (args ++ [e]))
  build : ∀ {id : FunctionId} {f : NamedFunction} {args : List Expr} {e : Expr},
    v.functions.get? id = some f → (∀ a ∈ args, Q a) → f.build id args = .ok e → Q e

/-- If the token stands for a tree, the tree has the property. -/
def Carries (Q : Expr → Prop) (t : Token) : Prop :=
  ∀ e, t.kind = .tree e → Q e

theorem carries_ofExpr {e : Expr} (he : Q e) (position : Nat) : Carries Q (.ofExpr e position) := by
  intro e' hk
  cases hk
  exact he

theorem carries_impliedTimes (position : Nat) : Carries Q (impliedTimes position) := by
  intro e hk
  cases hk

theorem carries_of_spelled {t : Token} (h : t.Spelled) : Carries Q t :=
  fun e hk => absurd hk (h.kind_ne_tree e)

/-! ## Reduction -/

theorem Inherited.of_stands (hQ : Inherited v Q) {t : Token} {e : Expr} (ht : Carries Q t)
    (h : Stands v t n e n') : Q e := by
  cases h with
  | int _ => exact hQ.literal _
  | double _ => exact hQ.literal _
  | tree hk => exact ht e hk
  | constant _ _ => exact hQ.constant _ _
  | var _ _ => exact hQ.var _ _

theorem extend?_eq_some {f : NamedFunction} {id : FunctionId} {stack stack' : List Expr}
    (h : extend? f id stack = some stack') :
    ∃ e g args rest, stack = e :: .call g args :: rest ∧
      stack' = .call g (args ++ [e]) :: rest := by
  unfold extend? at h
  split at h
  · next e g args rest =>
      split at h
      · exact ⟨e, g, args, rest, rfl, (Option.some.inj h).symm⟩
      · cases h
  · cases h

theorem Inherited.of_build (hQ : Inherited v Q) {id : FunctionId} {f : NamedFunction}
    (hget : v.functions.get? id = some f) {args rest stack : List Expr} (hargs : ∀ a ∈ args, Q a)
    (hrest : ∀ e ∈ rest, Q e) (h : (Parser.build f id args).map (· :: rest) = .ok stack) :
    ∀ e ∈ stack, Q e := by
  unfold Parser.build at h
  cases hbuild : f.build id args with
  | ok e =>
      simp only [hbuild] at h
      cases h
      exact List.forall_mem_cons.2 ⟨hQ.build hget hargs hbuild, hrest⟩
  | error err =>
      simp only [hbuild] at h
      cases h

/-- An operator passes the property on from the stack to the stack. -/
theorem Inherited.of_apply (hQ : Inherited v Q) {id : FunctionId} {f : NamedFunction} {t : Token}
    (hget : v.functions.get? id = some f) {stack stack' : List Expr} (hstack : ∀ e ∈ stack, Q e)
    (h : apply f id t stack = .ok stack') : ∀ e ∈ stack', Q e := by
  unfold apply at h
  split at h
  · next hextend =>
      cases h
      obtain ⟨e, g, args, rest, rfl, rfl⟩ := extend?_eq_some hextend
      obtain ⟨he, hcall, hrest⟩ : Q e ∧ Q (.call g args) ∧ ∀ e ∈ rest, Q e := by
        simpa [List.forall_mem_cons] using hstack
      exact List.forall_mem_cons.2 ⟨hQ.extend hcall he, hrest⟩
  · split at h
    · next b a rest _ =>
        obtain ⟨hb, ha, hrest⟩ : Q b ∧ Q a ∧ ∀ e ∈ rest, Q e := by
          simpa [List.forall_mem_cons] using hstack
        split at h
        · exact hQ.of_build hget (by simp [ha, hb]) hrest h
        · split at h
          · exact hQ.of_build hget (by simp [hb]) (List.forall_mem_cons.2 ⟨ha, hrest⟩) h
          · cases h
    · split at h
      · exact hQ.of_build hget hstack (by simp) h
      · cases h
    · cases h

theorem Inherited.of_foldlM (hQ : Inherited v Q) {tokens : List Token} {stack stack' : List Expr}
    (htokens : ∀ t ∈ tokens, Carries Q t) (hstack : ∀ e ∈ stack, Q e)
    (h : Yields (tokens.foldlM (reduceToken v) stack) n stack' n') : ∀ e ∈ stack', Q e := by
  induction tokens generalizing stack n with
  | nil =>
      obtain ⟨rfl, rfl⟩ := yields_pure.1 h
      exact hstack
  | cons t rest ih =>
      obtain ⟨ht, hrest⟩ := List.forall_mem_cons.1 htokens
      obtain ⟨stack₁, n₁, hfirst, hlast⟩ := yields_foldlM_cons.1 h
      refine ih hrest ?_ hlast
      rcases yields_reduceToken hfirst with ⟨-, e, hoperand, rfl⟩ | ⟨id, f, hoperator, happly, -⟩
      · exact List.forall_mem_cons.2 ⟨hQ.of_stands ht (stands_of_yields hoperand), hstack⟩
      · exact hQ.of_apply (Grammar.get?_of_operator? hoperator) hstack happly

theorem Inherited.of_reduce (hQ : Inherited v Q) {tokens : List Token} {start : Nat} {e : Expr}
    (htokens : ∀ t ∈ tokens, Carries Q t) (h : Yields (reduce v start tokens) n e n') : Q e :=
  hQ.of_foldlM htokens (by simp) (yields_reduce h).2 e List.mem_cons_self

theorem Inherited.of_reduceCall (hQ : Inherited v Q) {l : Level} {e : Expr}
    (houtput : ∀ t ∈ l.output, Carries Q t) (h : reduceCall v l = .ok e) : Q e := by
  obtain ⟨name, id, f, args, -, -, hget, hargs, -, hbuild⟩ := reduceCall_eq_ok h
  have hall : ∀ a ∈ args, Q a := by
    intro a ha
    obtain ⟨t, ht, hk⟩ := argumentsOf_eq_ok hargs a ha
    exact houtput t ht a hk
  have hmap : (Parser.build f id args).map (· :: []) = .ok [e] := by rw [hbuild]; rfl
  exact hQ.of_build hget hall (by simp) hmap e List.mem_cons_self

/-! ## The run invariant -/

/-- All trees that stand in the levels have the property. -/
structure CarryingState (Q : Expr → Prop) (s : State) : Prop where
  current : ∀ t ∈ s.current.finished, Carries Q t
  outer : ∀ l ∈ s.outer, ∀ t ∈ l.finished, Carries Q t
  callee : ∀ f, s.callee = some f → Carries Q f

/-- One step keeps the property of all trees. -/
theorem CarryingState.step (hQ : Inherited v Q) {s s' : State} {t : Token} {next : Option Token}
    (hspelled : t.Spelled) (h : CarryingState Q s) (hstep : Step v t next s n s' n') :
    CarryingState Q s' := by
  have ht : Carries Q t := carries_of_spelled hspelled
  have houterMem := h.outer
  cases hstep with
  | openParenthesis _ _ =>
      exact ⟨by simp [Level.finished], List.forall_mem_cons.2 ⟨h.current, h.outer⟩, by simp⟩
  | @openCall f _ hs =>
      have hcall : ∀ u ∈ Level.finished { isCall := true, start := t.position, pending := [f] },
          Carries Q u := by simpa [Level.finished] using h.callee f hs
      exact ⟨by simp [Level.finished],
        List.forall_mem_cons.2 ⟨hcall, List.forall_mem_cons.2 ⟨h.current, h.outer⟩⟩, by simp⟩
  | comma _ _ houter _ hreduce =>
      have he := hQ.of_reduce h.current hreduce
      rw [houter, List.forall_mem_cons] at houterMem
      have hpush := Level.forall_mem_of_perm houterMem.1 (Level.perm_push _ _)
        (carries_ofExpr he s.current.start)
      exact ⟨by simp [Level.finished], List.forall_mem_cons.2 ⟨hpush, houterMem.2⟩, by simp⟩
  | closeParenthesis _ _ houter _ hreduce =>
      have he := hQ.of_reduce h.current hreduce
      rw [houter, List.forall_mem_cons] at houterMem
      exact ⟨Level.forall_mem_of_perm houterMem.1 (Level.perm_push _ _)
        (carries_ofExpr he s.current.start), houterMem.2, by simp⟩
  | @closeCall _ call base outer inner e _ _ houter _ hinner hreduce =>
      rw [houter, List.forall_mem_cons, List.forall_mem_cons] at houterMem
      obtain ⟨hcall, hbase, hrest⟩ := houterMem
      have hargs : ∀ u ∈ call.output ++ inner, Carries Q u := by
        refine List.forall_mem_append.2 ⟨fun u hu => hcall u (List.mem_append_left _ hu), ?_⟩
        rcases yields_reduceInner hinner with ⟨-, -, rfl, -⟩ | ⟨e, hlast, rfl⟩
        · simp
        · simpa using carries_ofExpr (hQ.of_reduce h.current hlast) s.current.start
      have he : Q e := hQ.of_reduceCall hargs hreduce
      exact ⟨Level.forall_mem_of_perm hbase (Level.perm_push _ _) (carries_ofExpr he call.start),
        hrest, by simp⟩
  | callee _ _ _ =>
      refine ⟨h.current, h.outer, fun f hf => ?_⟩
      obtain rfl : t = f := by simpa using hf
      exact ht
  | operand _ _ _ _ =>
      exact ⟨Level.forall_mem_of_perm h.current (Level.perm_push _ _) ht, h.outer, h.callee⟩
  | factor _ _ _ _ =>
      have hpush := Level.forall_mem_of_perm h.current (Level.perm_push _ _) ht
      exact ⟨Level.forall_mem_of_perm hpush (Level.perm_pushOperator _ _ _)
        (carries_impliedTimes t.position), h.outer, h.callee⟩
  | operator _ _ _ =>
      exact ⟨Level.forall_mem_of_perm h.current (Level.perm_pushOperator _ _ _) ht, h.outer, h.callee⟩

/-- The tree of an accepted list of tokens has every property that is inherited. -/
theorem Inherited.of_parse (hQ : Inherited v Q) {tokens : List Token} {e : Expr}
    (hspelled : ∀ t ∈ tokens, t.Spelled) (h : parse v n tokens = (.ok e, n')) : Q e := by
  obtain ⟨-, s, n₁, hrun, -, hreduce⟩ := parse_eq_ok_cases h
  have hstart : CarryingState Q {} := ⟨by simp [Level.finished], by simp, by simp⟩
  have hfinal : CarryingState Q s :=
    run_invariant (I := fun s _ => CarryingState Q s)
      (fun hsuffix hs hstep => hs.step hQ (hspelled _ (hsuffix.subset List.mem_cons_self)) hstep)
      hstart hrun
  exact hQ.of_reduce hfinal.current hreduce

end Parser

end Reckoner
