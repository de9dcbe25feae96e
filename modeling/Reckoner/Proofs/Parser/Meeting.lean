import Reckoner.Proofs.Names.Coherent
import Reckoner.Proofs.Parser.Steps

/-!
Which names the parser meets.

Names are met in the reduction of a level, also if the text cannot be read in the end. `Meets` says
of a step, whether it succeeds or fails, that it meets only names of one kind, and what holds of its
result. The invariant of the run is that all identifiers that wait in the levels are of this kind.
-/
namespace Reckoner

namespace Parser

variable {α β : Type} {v : Vocabulary} {Q : String → Prop} {I : α → Prop} {J : β → Prop}

/-- The second list has grown out of the first one by names with the property. -/
def Grows (Q : String → Prop) (n n' : Names) : Prop :=
  ∃ names : List String, n' = n.meet names ∧ ∀ name ∈ names, Q name

theorem Grows.refl (n : Names) : Grows Q n n :=
  ⟨[], rfl, by simp⟩

theorem Grows.trans {n n₁ n₂ : Names} (h : Grows Q n n₁) (h' : Grows Q n₁ n₂) : Grows Q n n₂ := by
  obtain ⟨first, rfl, hfirst⟩ := h
  obtain ⟨second, rfl, hsecond⟩ := h'
  refine ⟨first ++ second, (n.meet_append first second).symm, fun name hname => ?_⟩
  rcases List.mem_append.1 hname with hname | hname
  · exact hfirst name hname
  · exact hsecond name hname

theorem extends_of_grows {n n' : Names} (h : Grows Q n n') : n.Extends n' := by
  obtain ⟨names, rfl, -⟩ := h
  exact n.extends_meet names

theorem Grows.coherent {n n' : Names} (h : Grows Q n n') (hn : n.Coherent) : n'.Coherent := by
  obtain ⟨names, rfl, -⟩ := h
  exact hn.meet names

/-- Every name in the list that has grown was there or has the property. -/
theorem Grows.mem {n n' : Names} (h : Grows Q n n') {name : String} (hname : name ∈ n'.toList) :
    name ∈ n.toList ∨ Q name := by
  obtain ⟨names, rfl, hnames⟩ := h
  exact (Names.mem_meet hname).imp_right (hnames name)

/-- The step meets only names with the property `Q`, and its result has the property `I` if there is
one. -/
def Meets (Q : String → Prop) (I : α → Prop) (m : Parsing α) : Prop :=
  ∀ n, match m.run n with
    | .ok a n' => I a ∧ Grows Q n n'
    | .error _ n' => Grows Q n n'

theorem meets_pure {a : α} (h : I a) : Meets Q I (pure a) :=
  fun n => ⟨h, .refl n⟩

theorem meets_throw (e : ParseError) : Meets Q I (throw e) :=
  fun n => .refl n

theorem Meets.bind {m : Parsing α} {f : α → Parsing β} (hm : Meets Q I m)
    (hf : ∀ a, I a → Meets Q J (f a)) : Meets Q J (m >>= f) := by
  intro n
  have hfirst := hm n
  rw [EStateM.run_bind]
  cases hrun : m.run n with
  | error e n₁ =>
      rw [hrun] at hfirst
      exact hfirst
  | ok a n₁ =>
      rw [hrun] at hfirst
      obtain ⟨ha, hgrows⟩ := hfirst
      have hsecond := hf a ha n₁
      dsimp only
      cases hrun' : (f a).run n₁ with
      | error e n₂ =>
          rw [hrun'] at hsecond
          exact hgrows.trans hsecond
      | ok b n₂ =>
          rw [hrun'] at hsecond
          exact ⟨hsecond.1, hgrows.trans hsecond.2⟩

/-! ## Reduction -/

/-- If the token is the name of a variable, this has the property. -/
def Admits (v : Vocabulary) (Q : String → Prop) (t : Token) : Prop :=
  ∀ name, t.kind = .ident name → v.constant? name = none → Q name

theorem admits_ofExpr (e : Expr) (position : Nat) : Admits v Q (.ofExpr e position) :=
  nofun

theorem admits_impliedTimes (position : Nat) : Admits v Q (impliedTimes position) :=
  nofun

theorem meets_operand {t : Token} (ht : Admits v Q t) : Meets Q (fun _ => True) (operand v t) := by
  unfold operand
  split
  · exact meets_pure trivial
  · exact meets_pure trivial
  · exact meets_pure trivial
  · next name hkind =>
      split
      · exact meets_pure trivial
      · next hconstant =>
          intro n
          refine ⟨trivial, [name], rfl, ?_⟩
          simpa using ht name hkind hconstant
  · exact meets_throw _

theorem meets_reduceToken {t : Token} (ht : Admits v Q t) (stack : List Expr) :
    Meets Q (fun _ => True) (reduceToken v stack t) := by
  unfold reduceToken
  split
  · split
    · exact meets_pure trivial
    · exact meets_throw _
  · exact (meets_operand ht).bind fun _ _ => meets_pure trivial

theorem meets_foldlM {tokens : List Token} (h : ∀ t ∈ tokens, Admits v Q t) (stack : List Expr) :
    Meets Q (fun _ => True) (tokens.foldlM (reduceToken v) stack) := by
  induction tokens generalizing stack with
  | nil => exact meets_pure trivial
  | cons t rest ih =>
      rw [List.foldlM_cons]
      exact (meets_reduceToken (h t List.mem_cons_self) stack).bind fun stack' _ =>
        ih (fun u hu => h u (List.mem_cons_of_mem _ hu)) stack'

theorem meets_reduce {tokens : List Token} (h : ∀ t ∈ tokens, Admits v Q t) (start : Nat) :
    Meets Q (fun _ => True) (reduce v start tokens) := by
  unfold reduce
  split
  · exact meets_throw _
  · refine (meets_foldlM h []).bind fun stack _ => ?_
    split
    · exact meets_pure trivial
    · exact meets_throw _

/-! ## Levels -/

/-- All identifiers that wait in the level are admitted. -/
def Level.Admits (v : Vocabulary) (Q : String → Prop) (l : Level) : Prop :=
  ∀ t ∈ l.finished, Parser.Admits v Q t

/-- All identifiers that wait somewhere are admitted. -/
structure State.Admits (v : Vocabulary) (Q : String → Prop) (s : State) : Prop where
  current : s.current.Admits v Q
  outer : ∀ l ∈ s.outer, l.Admits v Q
  callee : ∀ f, s.callee = some f → Parser.Admits v Q f

theorem Level.admits_empty (start : Nat) : Level.Admits v Q { start } := by
  simp [Level.Admits, Level.finished]

theorem Level.Admits.add {l l' : Level} {t : Token} (h : l.Admits v Q)
    (hperm : l'.finished.Perm (t :: l.finished)) (ht : Parser.Admits v Q t) : l'.Admits v Q :=
  Level.forall_mem_of_perm h hperm ht

theorem Level.Admits.push {l : Level} {t : Token} (h : l.Admits v Q) (ht : Parser.Admits v Q t) :
    (l.push t).Admits v Q :=
  h.add (l.perm_push t) ht

variable {s : State} {t : Token}

theorem State.Admits.push (h : s.Admits v Q) (ht : Parser.Admits v Q t) :
    (s.push t).Admits v Q :=
  ⟨h.current.push ht, h.outer, h.callee⟩

theorem meets_operator (h : s.Admits v Q) (ht : Admits v Q t) :
    Meets Q (State.Admits v Q) (s.operator v t) := by
  unfold State.operator
  split
  · exact meets_pure ⟨h.current.add (s.current.perm_pushOperator _ _) ht, h.outer, h.callee⟩
  · exact meets_throw _

theorem meets_nextArgument (h : s.Admits v Q) (position : Nat) :
    Meets Q (State.Admits v Q) (s.nextArgument v position) := by
  unfold State.nextArgument
  split
  · next call outer houter =>
      obtain ⟨hcall, houterAdmits⟩ := List.forall_mem_cons.1 (houter ▸ h.outer)
      split
      · refine (meets_reduce h.current _).bind fun e _ => ?_
        have hpushed : (call.push (.ofExpr e s.current.start)).Admits v Q :=
          hcall.push (admits_ofExpr e _)
        exact meets_pure ⟨Level.admits_empty _, List.forall_mem_cons.2 ⟨hpushed, houterAdmits⟩,
          h.callee⟩
      · exact meets_throw _
  · exact meets_throw _

theorem meets_reduceInner {l : Level} (h : l.Admits v Q) (inCall : Bool) :
    Meets Q (fun inner => ∀ t ∈ inner, Admits v Q t) (reduceInner v inCall l) := by
  unfold reduceInner
  split
  · exact meets_pure (by simp)
  · refine (meets_reduce h _).bind fun e _ => meets_pure ?_
    simpa using admits_ofExpr e _

theorem meets_close (h : s.Admits v Q) (position : Nat) :
    Meets Q (State.Admits v Q) (s.close v position) := by
  unfold State.close
  split
  · exact meets_throw _
  · next enclosing outer houter =>
      obtain ⟨henclosing, houterAdmits⟩ := List.forall_mem_cons.1 (houter ▸ h.outer)
      refine (meets_reduceInner h.current _).bind fun inner hinner => ?_
      have hlevel : Level.Admits v Q { enclosing with output := enclosing.output ++ inner } := by
        intro t ht
        simp only [Level.finished, List.mem_append] at ht
        rcases ht with (ht | ht) | ht
        · exact henclosing t (List.mem_append_left _ ht)
        · exact hinner t ht
        · exact henclosing t (List.mem_append_right _ ht)
      dsimp only
      split
      · split
        · exact meets_throw _
        · split
          · exact meets_throw _
          · next base rest =>
              obtain ⟨hbase, hrest⟩ := List.forall_mem_cons.1 houterAdmits
              exact meets_pure ⟨hbase.push (admits_ofExpr _ _), hrest, h.callee⟩
      · exact meets_pure ⟨hlevel, houterAdmits, h.callee⟩

theorem admits_openLevel (h : s.Admits v Q) (position : Nat) :
    (s.openLevel position).Admits v Q := by
  have hlevels : ∀ l ∈ s.current :: s.outer, l.Admits v Q :=
    List.forall_mem_cons.2 ⟨h.current, h.outer⟩
  refine ⟨Level.admits_empty _, fun l hl => ?_, nofun⟩
  rw [State.openLevel] at hl
  cases hf : s.callee with
  | none =>
      rw [hf] at hl
      exact hlevels l hl
  | some f =>
      rw [hf] at hl
      rcases List.mem_cons.1 hl with rfl | hl
      · simpa [Level.Admits, Level.finished] using h.callee f hf
      · exact hlevels l hl

/-! ## Runs -/

theorem meets_step (h : s.Admits v Q) (ht : Admits v Q t) (next : Option Token) :
    Meets Q (State.Admits v Q) (step v s t next) := by
  unfold step
  split
  · exact meets_pure (admits_openLevel h _)
  · exact meets_throw _
  · exact meets_nextArgument h _
  · exact meets_close h _
  · split
    · split
      · refine meets_pure ⟨h.current, h.outer, fun f hf => ?_⟩
        obtain rfl := Option.some.inj hf
        exact ht
      · exact meets_throw _
    · exact meets_pure (h.push ht)
  · split
    · exact meets_operator (h.push ht) (admits_impliedTimes _)
    · exact meets_pure (h.push ht)
  · split
    · exact meets_operator (h.push ht) (admits_impliedTimes _)
    · exact meets_pure (h.push ht)
  · exact meets_pure (h.push ht)
  · exact meets_operator h ht

theorem meets_run {tokens : List Token} (htokens : ∀ t ∈ tokens, Admits v Q t)
    (h : s.Admits v Q) : Meets Q (State.Admits v Q) (run v s tokens) := by
  induction tokens generalizing s with
  | nil => exact meets_pure h
  | cons t rest ih =>
      rw [run]
      exact (meets_step h (htokens t List.mem_cons_self) _).bind fun s' hs' =>
        ih (fun u hu => htokens u (List.mem_cons_of_mem _ hu)) hs'

theorem meets_parseTokens {tokens : List Token} (htokens : ∀ t ∈ tokens, Admits v Q t) :
    Meets Q (fun _ => True) (parseTokens v tokens) := by
  unfold parseTokens
  split
  · exact meets_throw _
  · refine (meets_run htokens ⟨Level.admits_empty 0, by simp, by simp⟩).bind fun s hs => ?_
    split
    · exact meets_reduce hs.current _
    · exact meets_throw _

/-- Whether tokens can be parsed or not, only names of variables among them are met. -/
theorem grows_of_parse (v : Vocabulary) (n : Names) (tokens : List Token) :
    Grows (fun name => v.constant? name = none ∧ ∃ t ∈ tokens, t.kind = .ident name) n
      (parse v n tokens).2 := by
  have hadmits : ∀ t ∈ tokens,
      Admits v (fun name => v.constant? name = none ∧ ∃ t ∈ tokens, t.kind = .ident name) t :=
    fun t ht name hkind hconstant => ⟨hconstant, t, ht, hkind⟩
  have hmeets := meets_parseTokens hadmits n
  unfold parse
  cases hrun : (parseTokens v tokens).run n with
  | ok e n' =>
      rw [hrun] at hmeets
      exact hmeets.2
  | error err n' =>
      rw [hrun] at hmeets
      exact hmeets

end Parser

end Reckoner
