import Reckoner.Proofs.Parser.Calls

/-!
Every expression of the infix grammar is parsed to its tree.
-/
namespace Reckoner

namespace Grammar

open Reckoner.Parser

variable {v : Vocabulary}

theorem step_opening {opening : Token} (h : opening.kind = .lparen) (s : State)
    (next : Option Token) : step v s opening next = pure (s.openLevel opening.position) := by
  rw [step, h]

theorem Reads.call (hv : v.functions.HasOperators) {p : Nat}
    {callee opening closing : Token} {x : String} {id : FunctionId} {f : NamedFunction}
    {args : List (List Token × NamedTree)} {inner : List Token}
    (hname : callee.kind = .ident x) (hopening : opening.kind = .lparen)
    (hclosing : closing.kind = .rparen) (hcallee : Callable v callee id f)
    (hcount : f.arity.accepts args.length = true) (hinner : Separated (args.map Prod.fst) inner)
    (hreads : ∀ arg ∈ args, arg.1 ≠ [] ∧ Reads v 1 arg.1 arg.2) :
    Reads v p (callee :: opening :: inner ++ [closing])
      fun numbering => callTree id (args.map fun arg => arg.2 numbering) := by
  intro s n hs hcall _
  let level : Level := { isCall := true, start := opening.position, pending := [callee] }
  let opened : State :=
    { current := { start := opening.position }, outer := level :: s.current :: s.outer }
  have hlevel : Collects callee level [] := ⟨rfl, rfl, rfl⟩
  -- Both steps before the first argument leave the names alone.
  have hrun : run v s (callee :: opening :: inner ++ [closing]) =
      run v opened (inner ++ [closing]) := by
    have hfirst : step v s callee (some opening) = pure { s with callee := some callee } := by
      rw [step, hname, hs]
      simp [hopening, TokenKind.isOpen, hcallee.find]
    rw [List.cons_append, List.cons_append, run_cons, List.head?_cons, hfirst, pure_bind, run_cons,
      step_opening hopening, pure_bind]
    rfl
  have hdone : ∃ n' : Names, n.Extends n' ∧ (∀ arg ∈ args, Settled arg.2 n') ∧
      Yields (run v opened (inner ++ [closing])) n
        { current := s.current.push (.ofExpr
            (callTree id (args.map fun arg => arg.2 n'.number)) opening.position)
          outer := s.outer } n' := by
    by_cases hargs : args = []
    · subst hargs
      obtain rfl : inner = [] := by
        cases hinner
        rfl
      refine ⟨n, Names.Extends.refl n, by simp, ?_⟩
      rw [List.nil_append, run_singleton, step_closing hclosing rfl]
      have hnone : Yields (reduceInner v true opened.current) n [] n := yields_pure.2 ⟨rfl, rfl⟩
      have hlevel' : Collects callee { level with output := level.output ++ [] } [] := hlevel
      exact yields_close_call (s := opened) hv hcallee hcount rfl rfl hlevel' hnone closing.position
    · exact yields_arguments hv hcallee hclosing hinner hargs hreads level s.current s.outer []
        opening.position n hlevel (by simpa using hcount)
  obtain ⟨n', hn', hsettled, hyields⟩ := hdone
  have htree : Settled (fun numbering => callTree id (args.map fun arg => arg.2 numbering)) n' := by
    intro m hm
    have hmap : args.map (fun arg => arg.2 m.number) = args.map fun arg => arg.2 n'.number :=
      List.map_congr_left fun arg harg => hsettled arg harg m hm
    simp only [hmap]
  refine ⟨[.ofExpr (callTree id (args.map fun arg => arg.2 n'.number)) opening.position], [], n',
    hn', by simp, reduces_ofExpr htree _, ?_⟩
  rw [hrun]
  have hstate : ∀ e : Token, s.extend [e] [] = { current := s.current.push e, outer := s.outer } := by
    intro e
    simp [State.extend, Level.push, hs]
  rw [hstate]
  exact hyields

theorem reads_of_derives (hv : v.functions.HasOperators) {p : Nat} {tokens : List Token}
    {tree : NamedTree} (h : Derives v p tokens tree) : Reads v p tokens tree := by
  induction h with
  | @int t k ht =>
      refine .operand ?_ fun n => reduces_literal ?_
      · intro s hs
        simp [step, ht, hs, opensOperand]
      · intro stack
        simp [reduceToken, operator?, operatorId?, operand, ht]
  | @double t x ht =>
      refine .operand ?_ fun n => reduces_literal ?_
      · intro s hs
        simp [step, ht, hs, opensOperand]
      · intro stack
        simp [reduceToken, operator?, operatorId?, operand, ht]
  | @name t x ht =>
      refine .operand ?_ fun n => reduces_name ht
      intro s hs
      simp [step, ht, hs]
  | parentheses hopening hclosing h ih => exact ih.parentheses hopening hclosing h.ne_nil
  | call hname hopening hclosing hfind hget hcount hinner hargs ih =>
      exact .call hv hname hopening hclosing ⟨hfind, hget⟩ hcount hinner
        fun arg harg => ⟨(hargs arg harg).ne_nil, ih arg harg⟩
  | negate ht h ih => exact ih.negate hv ht
  | loosen h ih => exact ih.loosen
  | join ht hleft hright ihleft ihright => exact ihleft.binary hv ht hleft.ne_nil ihright
  | adjoin hnumber hisNumber hnext hopens hleft hright ihleft ihright =>
      exact ihleft.adjoin hv hnumber hisNumber hnext hopens ihright

theorem parse_eq_of_derives (hv : v.functions.HasOperators) {tokens : List Token}
    {tree : NamedTree} (h : Derives v 1 tokens tree) (n : Names) :
    ∃ n' : Names, n.Extends n' ∧ Settled tree n' ∧
      Parser.parse v n tokens = (.ok (tree n'.number), n') := by
  obtain ⟨s, n₁, n₂, hn₂, hsettled, houter, -, hstart, -, hyields, hreduce⟩ :=
    (reads_of_derives hv h).yields_level (s := {}) rfl rfl n
  refine ⟨n₂, hn₂, hsettled, parse_eq_ok_iff.2 ?_⟩
  have hfinal : Yields (run v {} tokens >>= fun s =>
      if s.outer.isEmpty then reduce v s.current.start s.current.finished
      else throw (.missingClose s.current.start)) n (tree n₂.number) n₂ := by
    refine hyields.bind ?_
    rw [houter, hstart]
    exact hreduce
  cases tokens with
  | nil => exact absurd rfl h.ne_nil
  | cons t rest => exact hfinal

/-- Every expression of the grammar is parsed, whatever the constants are, and to the tree that the
grammar assigns to it; a variable has the number that its name has afterwards, and keeps it. -/
theorem read_of_derives (hv : v.functions = Standard.registry) {tokens : List Token}
    {tree : NamedTree} (h : Derives v 1 tokens tree) (n : Names) :
    ∃ n' : Names, n.Extends n' ∧ Settled tree n' ∧
      Parser.parse v n tokens = (.ok (tree n'.number), n') ∧
      Parser.read v n tokens = (tree n'.number, n') := by
  obtain ⟨n', hn', hsettled, hparse⟩ := parse_eq_of_derives (hv ▸ Standard.hasOperators_registry) h n
  refine ⟨n', hn', hsettled, hparse, ?_⟩
  simp only [Parser.read, hparse]

/-- The tokens of `2x + -cos(y)`. -/
theorem read_two_x_plus_cos :
    ∃ n' : Names,
      Parser.read (Standard.addFunctions Standard.vocabulary) {}
        [⟨.int 2, "2", 0⟩, ⟨.ident "x", "x", 1⟩, ⟨.plus, "+", 3⟩, ⟨.negate, "-", 5⟩,
          ⟨.ident "cos", "cos", 6⟩, ⟨.lparen, "(", 9⟩, ⟨.ident "y", "y", 10⟩, ⟨.rparen, ")", 11⟩] =
        (.call 0 [.call 1 [.literal (.int 2), .var "x" (n'.number "x")],
          .call 4 [.call 8 [.var "y" (n'.number "y")]]], n') := by
  let v : Vocabulary := Standard.addFunctions Standard.vocabulary
  have htwo : Derives v 3 [⟨.int 2, "2", 0⟩] fun _ => .literal (.int 2) :=
    (Derives.int rfl).mono (by decide)
  have hx : Derives v 4 [⟨.ident "x", "x", 1⟩] (nameTree v "x") :=
    (Derives.name rfl).mono (by decide)
  have hproduct := Derives.adjoin rfl rfl rfl rfl htwo hx
  have hy : Derives v 1 [⟨.ident "y", "y", 10⟩] (nameTree v "y") :=
    (Derives.name rfl).mono (by decide)
  let args : List (List Token × NamedTree) := [([⟨.ident "y", "y", 10⟩], nameTree v "y")]
  have hinner : Separated (args.map Prod.fst) [⟨.ident "y", "y", 10⟩] := .one _
  have hargs : ∀ arg ∈ args, Derives v 1 arg.1 arg.2 := by simpa [args] using hy
  have hget : v.functions.get? 8 = some (Standard.usual "cos" Float.cos) := rfl
  have hcos : Derives v tightest [⟨.ident "cos", "cos", 6⟩, ⟨.lparen, "(", 9⟩,
      ⟨.ident "y", "y", 10⟩, ⟨.rparen, ")", 11⟩] _ :=
    .call rfl rfl rfl rfl hget rfl hinner hargs
  have hnegated := Derives.negate (t := ⟨.negate, "-", 5⟩) rfl hcos
  have hsum := Derives.join (o := .add) (t := ⟨.plus, "+", 3⟩) ⟨rfl, rfl⟩
    (hproduct.mono (by decide)) (hnegated.mono (by decide))
  obtain ⟨n', -, -, -, hread⟩ := read_of_derives rfl hsum.loosen {}
  exact ⟨n', hread⟩

end Grammar

end Reckoner
