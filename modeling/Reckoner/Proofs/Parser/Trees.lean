import Reckoner.Proofs.Parser.Calls

/-!
What holds of every tree that the parser builds.

A property that holds of operands and passes from operands to operators, negations and calls holds
of the tree of every accepted list of tokens. The invariant of the run is that it holds of all trees
that stand in the levels, whichever of them a later token takes up.
-/
namespace Reckoner

namespace Parser

/-- The levels from the innermost one outwards: `P` holds of every level that is read into, and `Q`
of every level that collects arguments, which lies between two of the others. -/
inductive Nested (P Q : Level → Prop) : Level → List Level → Prop
  | outermost {l : Level} (h : P l) : Nested P Q l []
  | parenthesis {l base : Level} {outer : List Level} (h : P l) (hbase : Nested P Q base outer) :
      Nested P Q l (base :: outer)
  | argument {l call base : Level} {outer : List Level} (h : P l) (hcall : Q call)
      (hbase : Nested P Q base outer) : Nested P Q l (call :: base :: outer)

section Nested

variable {P Q P' Q' : Level → Prop} {l l' : Level} {outer : List Level}

theorem Nested.innermost (h : Nested P Q l outer) : P l := by
  cases h <;> assumption

theorem Nested.replace (h : Nested P Q l outer) (hl : P l') : Nested P Q l' outer := by
  cases h with
  | outermost _ => exact .outermost hl
  | parenthesis _ hbase => exact .parenthesis hl hbase
  | argument _ hcall hbase => exact .argument hl hcall hbase

theorem Nested.mono (hP : ∀ l, P l → P' l) (hQ : ∀ l, Q l → Q' l) (h : Nested P Q l outer) :
    Nested P' Q' l outer := by
  induction h with
  | outermost h => exact .outermost (hP _ h)
  | parenthesis h _ ih => exact .parenthesis (hP _ h) ih
  | argument h hcall _ ih => exact .argument (hP _ h) (hQ _ hcall) ih

/-- Around a level lies one that is read into, or one that collects arguments and then such. -/
theorem Nested.outer_cases (h : Nested P Q l outer) :
    outer = [] ∨ (∃ base rest, outer = base :: rest ∧ Nested P Q base rest) ∨
      ∃ call base rest, outer = call :: base :: rest ∧ Q call ∧ Nested P Q base rest := by
  cases h with
  | outermost _ => exact .inl rfl
  | parenthesis _ hbase => exact .inr (.inl ⟨_, _, rfl, hbase⟩)
  | argument _ hcall hbase => exact .inr (.inr ⟨_, _, _, rfl, hcall, hbase⟩)

end Nested

/-- The tokens of collected arguments are trees. -/
theorem kinds_of_argumentsOf {tokens : List Token} {args : List Expr}
    (h : argumentsOf tokens = .ok args) : tokens.map Token.kind = args.map .tree := by
  induction tokens generalizing args with
  | nil =>
      cases h
      rfl
  | cons t rest ih =>
      cases hk : t.kind with
      | tree e =>
          cases hrest : argumentsOf rest with
          | ok args' =>
              simp only [argumentsOf, hk, hrest] at h
              cases h
              rw [List.map_cons, List.map_cons, hk, ih hrest]
          | error err =>
              simp only [argumentsOf, hk, hrest] at h
              cases h
      | _ => simp [argumentsOf, hk] at h

theorem argumentsOf_eq_ok {tokens : List Token} {args : List Expr}
    (h : argumentsOf tokens = .ok args) : ∀ e ∈ args, ∃ t ∈ tokens, t.kind = .tree e := by
  intro e he
  have hkind : TokenKind.tree e ∈ tokens.map Token.kind := by
    rw [kinds_of_argumentsOf h]
    exact List.mem_map_of_mem he
  exact List.mem_map.1 hkind

theorem Step.extends {v : Vocabulary} {t : Token} {next : Option Token} {s s' : State}
    {n n' : Names} (h : Step v t next s n s' n') : n.Extends n' := by
  cases h with
  | comma _ _ _ _ hreduce => exact hreduce.extends_reduce
  | closeParenthesis _ _ _ _ hreduce => exact hreduce.extends_reduce
  | closeCall _ _ _ _ hinner _ =>
      rcases yields_reduceInner hinner with ⟨-, -, -, rfl⟩ | ⟨e, hreduce, -⟩
      · exact .refl n
      · exact hreduce.extends_reduce
  | _ => exact .refl n

end Parser

namespace Grammar

open Reckoner.Parser

variable {v : Vocabulary} {n n' m : Names}

/-- `P` holds of operands that have the property `Operand`, and passes from operands to operators,
negations and the calls of names that have the property `Callee`. Which variables have numbers may
matter to `P`, but further variables do not. -/
structure TreeProperty (v : Vocabulary) (Operand Callee : Token → Prop)
    (P : Names → Expr → Prop) : Prop where
  mono : ∀ {n m : Names} {e : Expr}, n.Extends m → P n e → P m e
  operand : ∀ {t : Token} {n n' : Names} {e : Expr}, Operand t → Yields (operand v t) n e n' → P n' e
  binary : ∀ {n : Names} (o : BinaryOperator) {left right : Expr}, P n left → P n right →
    P n (o.combine left right)
  negate : ∀ {n : Names} {e : Expr}, P n e → P n (.call Standard.negation [e])
  call : ∀ {n : Names} {t : Token} {id : FunctionId} {f : NamedFunction} {args : List Expr},
    Callee t → Callable v t id f → f.arity.accepts args.length = true → (∀ e ∈ args, P n e) →
    P n (callTree id args)

variable {Operand Callee : Token → Prop} {P : Names → Expr → Prop}

/-- The token stands for a tree with the property. -/
def IsTree (P : Names → Expr → Prop) (n : Names) (t : Token) : Prop :=
  ∃ e, t.kind = .tree e ∧ P n e

/-- The token is an operator, a tree with the property, or an operand that gets the property. -/
def Sound (Operand : Token → Prop) (P : Names → Expr → Prop) (n : Names) (t : Token) : Prop :=
  IsOperation t ∨ IsTree P n t ∨ t.kind.isOperand = true ∧ Operand t

theorem Sound.mono (hP : TreeProperty v Operand Callee P) {t : Token} (hnm : n.Extends m)
    (h : Sound Operand P n t) : Sound Operand P m t := by
  rcases h with h | ⟨e, hk, he⟩ | h
  · exact .inl h
  · exact .inr (.inl ⟨e, hk, hP.mono hnm he⟩)
  · exact .inr (.inr h)

/-- Reduction keeps the property of all trees on the stack. -/
theorem TreeProperty.forall_mem_stack (hv : v.functions.HasOperators)
    (hP : TreeProperty v Operand Callee P) {tokens : List Token} {stack stack' : List Expr}
    (htokens : ∀ t ∈ tokens, Sound Operand P n t) (hstack : ∀ e ∈ stack, P n e)
    (h : Yields (tokens.foldlM (reduceToken v) stack) n stack' n') : ∀ e ∈ stack', P n' e := by
  induction tokens generalizing stack n with
  | nil =>
      obtain ⟨rfl, rfl⟩ := yields_pure.1 h
      exact hstack
  | cons t rest ih =>
      obtain ⟨stack₁, n₁, hfirst, hrest⟩ := yields_foldlM_cons.1 h
      have hextends : n.Extends n₁ := by
        have hone : Yields ([t].foldlM (reduceToken v) stack) n stack₁ n₁ :=
          yields_foldlM_cons.2 ⟨stack₁, n₁, hfirst, yields_pure.2 ⟨rfl, rfl⟩⟩
        exact hone.extends_foldlM
      have hafter : ∀ u ∈ rest, Sound Operand P n₁ u :=
        fun u hu => (htokens u (List.mem_cons_of_mem _ hu)).mono hP hextends
      refine ih hafter ?_ hrest
      rcases htokens t List.mem_cons_self with (ht | ⟨o, ht⟩) | ⟨e, hk, he⟩ | ⟨ht, hOperand⟩
      · obtain ⟨e, rest', rfl, rfl, rfl⟩ := yields_reduceToken_negate hv ht hfirst
        simp only [List.forall_mem_cons] at hstack ⊢
        exact ⟨hP.negate hstack.1, hstack.2⟩
      · obtain ⟨left, right, rest', rfl, rfl, rfl⟩ := yields_reduceToken_binary hv ht hfirst
        simp only [List.forall_mem_cons] at hstack ⊢
        exact ⟨hP.binary o hstack.2.1 hstack.1, hstack.2.2⟩
      · obtain ⟨e', he', rfl⟩ := yields_reduceToken_operand (by rw [hk]; rfl) hfirst
        simp only [Parser.operand, hk] at he'
        obtain ⟨rfl, rfl⟩ := yields_pure.1 he'
        exact List.forall_mem_cons.2 ⟨he, hstack⟩
      · obtain ⟨e', he', rfl⟩ := yields_reduceToken_operand ht hfirst
        exact List.forall_mem_cons.2
          ⟨hP.operand hOperand he', fun e he => hP.mono hextends (hstack e he)⟩

theorem TreeProperty.of_reduce (hv : v.functions.HasOperators)
    (hP : TreeProperty v Operand Callee P) {tokens : List Token} {start : Nat} {e : Expr}
    (htokens : ∀ t ∈ tokens, Sound Operand P n t) (h : Yields (reduce v start tokens) n e n') :
    P n' e :=
  hP.forall_mem_stack hv htokens (by simp) (yields_reduce h).2 e List.mem_cons_self

/-! ## The run invariant -/

/-- Every token of a level that is read into is sound. -/
def SoundLevel (Operand : Token → Prop) (P : Names → Expr → Prop) (n : Names) (l : Level) : Prop :=
  l.isCall = false ∧ ∀ t ∈ l.finished, Sound Operand P n t

/-- A level that collects arguments has collected trees with the property. -/
structure SoundCall (Callee : Token → Prop) (P : Names → Expr → Prop) (n : Names) (l : Level) :
    Prop where
  isCall : l.isCall = true
  pending : ∃ callee, l.pending = [callee] ∧ Callee callee
  output : ∀ t ∈ l.output, IsTree P n t

/-- The parser's state between two tokens. -/
structure SoundState (Operand Callee : Token → Prop) (P : Names → Expr → Prop) (n : Names)
    (s : State) : Prop where
  levels : Nested (SoundLevel Operand P n) (SoundCall Callee P n) s.current s.outer
  callee : ∀ f, s.callee = some f → Callee f

theorem SoundLevel.mono (hP : TreeProperty v Operand Callee P) {l : Level} (hnm : n.Extends m)
    (h : SoundLevel Operand P n l) : SoundLevel Operand P m l :=
  ⟨h.1, fun t ht => (h.2 t ht).mono hP hnm⟩

theorem SoundCall.mono (hP : TreeProperty v Operand Callee P) {l : Level} (hnm : n.Extends m)
    (h : SoundCall Callee P n l) : SoundCall Callee P m l where
  isCall := h.isCall
  pending := h.pending
  output := fun t ht => by
    obtain ⟨e, hk, he⟩ := h.output t ht
    exact ⟨e, hk, hP.mono hnm he⟩

theorem soundLevel_empty (start : Nat) : SoundLevel Operand P n { start } :=
  ⟨rfl, by simp [Level.finished]⟩

/-- A level gets one more sound token, wherever it is put. -/
theorem SoundLevel.add {l l' : Level} {t : Token} (h : SoundLevel Operand P n l)
    (hcall : l'.isCall = l.isCall) (hperm : l'.finished.Perm (t :: l.finished))
    (ht : Sound Operand P n t) : SoundLevel Operand P n l' :=
  ⟨hcall.trans h.1, Level.forall_mem_of_perm h.2 hperm ht⟩

theorem SoundLevel.push_ofExpr {l : Level} {e : Expr} (h : SoundLevel Operand P n l) (he : P n e)
    (start : Nat) : SoundLevel Operand P n (l.push (.ofExpr e start)) :=
  h.add rfl (l.perm_push _) (.inr (.inl ⟨e, rfl, he⟩))

theorem SoundCall.push_ofExpr {l : Level} {e : Expr} (h : SoundCall Callee P n l) (he : P n e)
    (start : Nat) : SoundCall Callee P n (l.push (.ofExpr e start)) where
  isCall := h.isCall
  pending := h.pending
  output := fun t ht => by
    rcases List.mem_append.1 ht with ht | ht
    · exact h.output t ht
    · obtain rfl : t = .ofExpr e start := by simpa using ht
      exact ⟨e, rfl, he⟩

/-- The tree of a finished call has the property. -/
theorem SoundCall.of_reduceCall (hv : v.functions.HasOperators)
    (hP : TreeProperty v Operand Callee P) {l : Level} {e : Expr} (h : SoundCall Callee P n l)
    (hreduce : reduceCall v l = .ok e) : P n e := by
  obtain ⟨name, id, f, args, hname, hfind, hget, hargs, hcount, hbuild⟩ := reduceCall_eq_ok hreduce
  obtain ⟨callee, hpending, hcallee⟩ := h.pending
  obtain rfl : callee = name := by
    rw [hpending] at hname
    simpa using hname
  have htree := build_eq_callTree hv hget hcount
  rw [hbuild] at htree
  obtain rfl : e = callTree id args := by simpa using htree
  refine hP.call hcallee ⟨hfind, hget⟩ hcount fun e he => ?_
  obtain ⟨t, ht, hk⟩ := argumentsOf_eq_ok hargs e he
  obtain ⟨e', hk', he'⟩ := h.output t ht
  rw [hk] at hk'
  cases hk'
  exact he'

/-- One step keeps the levels sound. -/
theorem SoundState.step (hv : v.functions.HasOperators) (hP : TreeProperty v Operand Callee P)
    {s s' : State} {t : Token} {next : Option Token} (hspelled : t.Spelled)
    (hoperand : t.kind.isOperand = true → opensCall t next = false → Operand t)
    (hcallee : opensCall t next = true → Callee t) (h : SoundState Operand Callee P n s)
    (hstep : Step v t next s n s' n') : SoundState Operand Callee P n' s' := by
  have hextends := hstep.extends
  have hmono : Nested (SoundLevel Operand P n') (SoundCall Callee P n') s.current s.outer :=
    h.levels.mono (fun l hl => hl.mono hP hextends) (fun l hl => hl.mono hP hextends)
  have hcurrent : SoundLevel Operand P n s.current := h.levels.innermost
  cases hstep with
  | openParenthesis ht hs =>
      exact ⟨.parenthesis (soundLevel_empty _) h.levels, by simp⟩
  | @openCall f ht hs =>
      have hcall : SoundCall Callee P n { isCall := true, start := t.position, pending := [f] } :=
        ⟨rfl, ⟨f, rfl, h.callee f hs⟩, by simp⟩
      exact ⟨.argument (soundLevel_empty _) hcall h.levels, by simp⟩
  | comma ht hs houter hcall hreduce =>
      have he := hP.of_reduce hv hcurrent.2 hreduce
      rw [houter] at hmono
      rcases hmono.outer_cases with hnil | ⟨_, _, heq, hbase⟩ | ⟨_, _, _, heq, hsound, hbase⟩
      · cases hnil
      · cases heq
        exact absurd hcall (by simp [hbase.innermost.1])
      · cases heq
        exact ⟨.argument (soundLevel_empty _) (hsound.push_ofExpr he _) hbase, by simp⟩
  | closeParenthesis ht hs houter hbase hreduce =>
      have he := hP.of_reduce hv hcurrent.2 hreduce
      rw [houter] at hmono
      rcases hmono.outer_cases with hnil | ⟨_, _, heq, hnested⟩ | ⟨_, _, _, heq, hsound, -⟩
      · cases hnil
      · cases heq
        exact ⟨hnested.replace (hnested.innermost.push_ofExpr he _), by simp⟩
      · cases heq
        exact absurd hsound.isCall (by simp [hbase])
  | @closeCall _ call base outer inner e ht hs houter hcall hinner hreduce =>
      rw [houter] at hmono
      rcases hmono.outer_cases with hnil | ⟨_, _, heq, hnested⟩ | ⟨_, _, _, heq, hsound, hnested⟩
      · cases hnil
      · cases heq
        exact absurd hcall (by simp [hnested.innermost.1])
      · cases heq
        have hfull : SoundCall Callee P n' { call with output := call.output ++ inner } := by
          rcases yields_reduceInner hinner with ⟨-, -, rfl, -⟩ | ⟨e, hlast, rfl⟩
          · simpa using hsound
          · exact hsound.push_ofExpr (hP.of_reduce hv hcurrent.2 hlast) _
        have he := hfull.of_reduceCall hv hP hreduce
        exact ⟨hnested.replace (hnested.innermost.push_ofExpr he _), by simp⟩
  | callee ht hs hfind =>
      refine ⟨h.levels, fun f hf => ?_⟩
      obtain rfl : t = f := by simpa using hf
      exact hcallee ht
  | operand ht hs hcall hjoin =>
      have hsound : SoundLevel Operand P n (s.current.push t) :=
        hcurrent.add rfl (s.current.perm_push t) (.inr (.inr ⟨ht, hoperand ht hcall⟩))
      exact ⟨h.levels.replace hsound, h.callee⟩
  | factor ht hs hnext hoperator =>
      have hkind := isOperand_of_isNumber ht next
      have hsound : SoundLevel Operand P n (s.current.push t) :=
        hcurrent.add rfl (s.current.perm_push t) (.inr (.inr ⟨hkind.1, hoperand hkind.1 hkind.2⟩))
      have htimes : Sound Operand P n (impliedTimes t.position) :=
        .inl (.inr ⟨.multiply, isBinary_impliedTimes _⟩)
      exact ⟨h.levels.replace (hsound.add rfl ((s.current.push t).perm_pushOperator _ _) htimes),
        h.callee⟩
  | operator ht hs hoperator =>
      have hoperation := isOperation_of_spelled hspelled ht
      exact ⟨h.levels.replace (hcurrent.add rfl (s.current.perm_pushOperator _ _) (.inl hoperation)),
        h.callee⟩

/-- The tree of an accepted list of tokens has every property that its operands have and that passes
to operators, negations and calls. -/
theorem TreeProperty.of_parse (hv : v.functions.HasOperators)
    (hP : TreeProperty v Operand Callee P) {tokens : List Token} {e : Expr}
    (hspelled : ∀ t ∈ tokens, t.Spelled)
    (hoperand : ∀ t rest, t :: rest <:+ tokens → t.kind.isOperand = true →
      opensCall t rest.head? = false → Operand t)
    (hcallee : ∀ t rest, t :: rest <:+ tokens → opensCall t rest.head? = true → Callee t)
    (h : Parser.parse v n tokens = (.ok e, n')) : P n' e := by
  obtain ⟨-, s, n₁, hrun, -, hreduce⟩ := parse_eq_ok_cases h
  have hstart : SoundState Operand Callee P n {} := ⟨.outermost (soundLevel_empty 0), by simp⟩
  have hfinal : SoundState Operand Callee P n₁ s :=
    run_invariant (I := fun s n => SoundState Operand Callee P n s)
      (fun hsuffix hs hstep =>
        hs.step hv hP (hspelled _ (hsuffix.subset List.mem_cons_self)) (hoperand _ _ hsuffix)
          (hcallee _ _ hsuffix) hstep)
      hstart hrun
  exact hP.of_reduce hv hfinal.levels.innermost.2 hreduce

end Grammar

end Reckoner
