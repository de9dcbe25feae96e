import Reckoner.Proofs.Expr.Readable

/-!
The tree that a text is read as.

`readBack` is the tree that is read from the full or the minimal form of a tree. A minus sign before
a number becomes part of it, and a sum whose first operand is a sum takes up the other operands. In
the minimal form the operands of a sum within a sum have lost their parentheses, so all of them
become operands of the outer one. Products go the same way.
-/
namespace Reckoner

namespace Value

/-- The value is a number whose text does not begin with a minus sign. -/
def isUnsigned : Value → Bool
  | int k => decide (0 ≤ k.toInt)
  | double x => (Decimal.text x).toList.head? != some '-'
  | _ => false

/-- The number that a minus sign before the text of the number makes. -/
def opposite : Value → Value
  | int k => int (-k)
  | double x => double (-x)
  | v => v

end Value

namespace Expr

/-- The number that the call is read as, if it is written as a minus sign before a number. -/
def signed? (id : FunctionId) : List Expr → Option Value
  | [literal v] => if id = Standard.negation ∧ v.isUnsigned = true then some v.opposite else none
  | _ => none

/-- The function is the sum or the product. -/
def flattens (id : FunctionId) : Bool :=
  id == BinaryOperator.add.place || id == BinaryOperator.multiply.place

/-- Operands one after the other: a first one that is a call itself takes up the others. -/
def joined (id : FunctionId) : List Expr → Expr
  | call f inner :: rest =>
    if f = id then call id (inner ++ rest) else call id (call f inner :: rest)
  | es => call id es

mutual

/-- The tree that is read from the minimal or the full form. -/
def readBack (minimal : Bool) : Expr → Expr
  | literal v => literal v
  | var name id => var name id
  | constant name v => constant name v
  | call id arguments =>
    match signed? id arguments with
    | some v => literal v
    | none =>
      if flattens id && decide (2 ≤ arguments.length) then
        joined id (spread minimal id arguments)
      else
        call id (readBackAll minimal arguments)
  | assign target value => assign (readBack minimal target) (readBack minimal value)

/-- The same for several trees. -/
def readBackAll (minimal : Bool) : List Expr → List Expr
  | [] => []
  | e :: rest => readBack minimal e :: readBackAll minimal rest

/-- The operands that are read one after the other from those of a sum or a product. -/
def spread (minimal : Bool) (id : FunctionId) : List Expr → List Expr
  | [] => []
  | call f arguments :: rest =>
    if minimal && f == id && decide (2 ≤ arguments.length) then
      spread minimal id arguments ++ spread minimal id rest
    else
      readBack minimal (call f arguments) :: spread minimal id rest
  | e :: rest => readBack minimal e :: spread minimal id rest

end

/-- The operands that are read from one of them. -/
def operands (minimal : Bool) (id : FunctionId) (e : Expr) : List Expr :=
  match e with
  | call f arguments =>
    if minimal && f == id && decide (2 ≤ arguments.length) then
      spread minimal id arguments
    else
      [readBack minimal e]
  | _ => [readBack minimal e]

variable {e : Expr} {o : BinaryOperator} {minimal : Bool} {id : FunctionId}

theorem readBackAll_eq_map (minimal : Bool) (es : List Expr) :
    readBackAll minimal es = es.map (readBack minimal) := by
  induction es with
  | nil => rw [readBackAll, List.map_nil]
  | cons e rest ih => rw [readBackAll, ih, List.map_cons]

theorem spread_nil (minimal : Bool) (id : FunctionId) : spread minimal id [] = [] := by
  rw [spread]

theorem spread_cons (minimal : Bool) (id : FunctionId) (e : Expr) (rest : List Expr) :
    spread minimal id (e :: rest) = operands minimal id e ++ spread minimal id rest := by
  cases e with
  | call f arguments =>
      rw [spread, operands]
      split <;> rfl
  | _ => rfl

/-- An operand that is no such sum or product itself is read as one operand. -/
theorem operands_of_ne (h : minimal = true → ∀ args : List Expr, 2 ≤ args.length → e ≠ .call id args) :
    operands minimal id e = [e.readBack minimal] := by
  unfold operands
  split
  next f args =>
    have hcond : (minimal && f == id && decide (2 ≤ args.length)) = false := by
      refine Bool.eq_false_iff.2 fun hall => ?_
      simp only [Bool.and_eq_true, beq_iff_eq, decide_eq_true_eq] at hall
      exact h hall.1.1 args hall.2 (by rw [hall.1.2])
    simp [hcond]
  next => rfl

theorem flattens_place (o : BinaryOperator) : flattens o.place = o.flattens := by
  cases o <;> rfl

/-- Only a sum or a product flattens. -/
theorem exists_of_flattens (h : flattens id = true) :
    ∃ o : BinaryOperator, o.flattens = true ∧ id = o.place := by
  rcases Bool.or_eq_true_iff.1 h with h | h
  · exact ⟨.add, rfl, eq_of_beq h⟩
  · exact ⟨.multiply, rfl, eq_of_beq h⟩

/-- Sums and products are written with their operators. -/
theorem not_flattens_of_regular {r : Registry} (hr : r.HasOperators) {f : NamedFunction}
    (hget : r.get? id = some f) (hregular : f.fixity = .regular) : flattens id = false := by
  refine Bool.eq_false_iff.2 fun h => ?_
  obtain ⟨o, -, rfl⟩ := exists_of_flattens h
  rw [hr.operator o, Option.some.injEq] at hget
  rw [← hget, o.fixity_description] at hregular
  cases hregular

theorem not_flattens_negation : flattens Standard.negation = false :=
  rfl

theorem signed?_of_ne (h : id ≠ Standard.negation) (args : List Expr) : signed? id args = none := by
  unfold signed?
  split
  · rw [if_neg fun hn => h hn.1]
  · rfl

/-- A sum or a product is read as its operands one after the other. -/
theorem readBack_of_flattens (ho : o.flattens = true) {args : List Expr} (h : 2 ≤ args.length) :
    (call o.place args).readBack minimal = joined o.place (spread minimal o.place args) := by
  rw [readBack, signed?_of_ne o.place_ne_negation]
  simp [flattens_place, ho, h]

/-- Any other call is read as a call. -/
theorem readBack_call {args : List Expr} (hsigned : signed? id args = none)
    (h : flattens id = false ∨ args.length < 2) :
    (call id args).readBack minimal = call id (args.map (readBack minimal)) := by
  rw [readBack, hsigned, readBackAll_eq_map]
  have hcond : (flattens id && decide (2 ≤ args.length)) = false := by
    rcases h with h | h
    · simp [h]
    · have hnot : ¬ 2 ≤ args.length := by omega
      simp [hnot]
  simp [hcond]

/-- Induction along the tree that is read back. A sum or product of several operands needs what
holds of these as they are read one after the other, each as a whole or with operands of its own. -/
theorem readBack_induction (minimal : Bool) {P : Expr → Prop}
    {R : BinaryOperator → List Expr → Prop}
    (literal : ∀ v, P (literal v)) (var : ∀ name id, P (var name id))
    (constant : ∀ name v, P (constant name v))
    (signed : ∀ v, v.isUnsigned = true → P (call Standard.negation [.literal v]))
    (sum : ∀ o args, o.flattens = true → 2 ≤ args.length → (∀ e ∈ args, P e) → R o args →
      P (call o.place args))
    (call : ∀ id args, signed? id args = none → flattens id = false ∨ args.length < 2 →
      (∀ e ∈ args, P e) → P (call id args))
    (assign : ∀ target value, P target → P value → P (assign target value))
    (nil : ∀ o, R o [])
    (whole : ∀ o e rest, o.flattens = true → operands minimal o.place e = [e.readBack minimal] →
      P e → R o rest → R o (e :: rest))
    (own : ∀ o args rest, o.flattens = true →
      operands minimal o.place (.call o.place args) = spread minimal o.place args →
      R o args → P (.call o.place args) → R o rest → R o (.call o.place args :: rest))
    (e : Expr) : P e := by
  refine readBack.induct minimal P (fun es => ∀ e ∈ es, P e)
    (fun id es => ∀ o : BinaryOperator, o.flattens = true → id = o.place →
      (∀ e ∈ es, P e) ∧ R o es)
    literal var constant ?signed ?sum ?call assign (by simp) ?cons (fun _ o _ _ => ⟨by simp, nil o⟩)
    ?own ?inner ?operand e
  case signed =>
    intro id args v h
    unfold signed? at h
    split at h
    next u =>
      split at h
      next hu =>
        rw [hu.1]
        exact signed u hu.2
      next => cases h
    next => cases h
  case sum =>
    intro id args _ h hspread
    obtain ⟨hflattens, hlength⟩ := Bool.and_eq_true_iff.1 h
    obtain ⟨o, ho, rfl⟩ := exists_of_flattens hflattens
    obtain ⟨hargs, hspread⟩ := hspread o ho rfl
    exact sum o args ho (of_decide_eq_true hlength) hargs hspread
  case call =>
    intro id args hsigned h hargs
    refine call id args hsigned ?_ hargs
    simpa [Classical.or_iff_not_imp_left] using h
  case cons =>
    intro e rest he hrest
    exact List.forall_mem_cons.2 ⟨he, hrest⟩
  case own =>
    rintro _ f args rest h hown hrest o ho rfl
    obtain ⟨hargs, hown⟩ := hown o ho rfl
    obtain ⟨hothers, hrest⟩ := hrest o ho rfl
    obtain ⟨hminimal, hlength⟩ := Bool.and_eq_true_iff.1 h
    obtain rfl : f = o.place := eq_of_beq (Bool.and_eq_true_iff.1 hminimal).2
    have hcall := sum o args ho (of_decide_eq_true hlength) hargs hown
    exact ⟨List.forall_mem_cons.2 ⟨hcall, hothers⟩,
      own o args rest ho (by rw [operands, if_pos h]) hown hcall hrest⟩
  case inner =>
    rintro _ f args rest h hcall hrest o ho rfl
    obtain ⟨hothers, hrest⟩ := hrest o ho rfl
    exact ⟨List.forall_mem_cons.2 ⟨hcall, hothers⟩,
      whole o _ rest ho (by simp [operands, h]) hcall hrest⟩
  case operand =>
    rintro _ e rest h he hrest o ho rfl
    obtain ⟨hothers, hrest⟩ := hrest o ho rfl
    exact ⟨List.forall_mem_cons.2 ⟨he, hothers⟩,
      whole o e rest ho (operands_of_ne fun _ args _ => h _ args) he hrest⟩

/-! ## Operands that are gathered -/

/-- Operands are gathered into one call by an operator that takes any number of them. -/
theorem foldl_combine (ho : o.flattens = true) (args others : List Expr) :
    others.foldl o.combine (.call o.place args) = .call o.place (args ++ others) := by
  induction others generalizing args with
  | nil => rw [List.append_nil, List.foldl_nil]
  | cons e others ih =>
      have hcombine : o.combine (.call o.place args) e = .call o.place (args ++ [e]) := by
        simp [BinaryOperator.combine, BinaryOperator.ne_assign_of_flattens ho, ho]
      rw [List.foldl_cons, hcombine, ih, List.append_assoc]
      rfl

theorem combine_of_ne (ho : o ≠ .assign) {left : Expr}
    (hleft : o.flattens = true → ∀ args, left ≠ .call o.place args) (right : Expr) :
    o.combine left right = .call o.place [left, right] := by
  unfold BinaryOperator.combine
  rw [if_neg ho]
  split
  next f args =>
    split
    next h =>
      obtain ⟨hflattens, hplace⟩ := Bool.and_eq_true_iff.1 h
      obtain rfl : f = o.place := by simpa using hplace
      exact absurd rfl (hleft hflattens args)
    next => rfl
  next => rfl

theorem joined_of_ne {rest : List Expr} (h : ∀ args, e ≠ call id args) :
    joined id (e :: rest) = call id (e :: rest) := by
  unfold joined
  split
  next f inner rest' heq =>
    obtain ⟨rfl, rfl⟩ := List.cons.inj heq
    exact if_neg fun hf => h inner (by rw [hf])
  next => rfl

/-- Two or more operands one after the other. -/
theorem foldl_combine_eq_joined (ho : o.flattens = true) (e : Expr) {rest : List Expr}
    (hrest : rest ≠ []) : rest.foldl o.combine e = joined o.place (e :: rest) := by
  by_cases h : ∃ inner, e = .call o.place inner
  · obtain ⟨inner, rfl⟩ := h
    rw [foldl_combine ho, joined, if_pos rfl]
  · have hne : ∀ args, e ≠ .call o.place args := fun args heq => h ⟨args, heq⟩
    obtain ⟨second, others, rfl⟩ := List.exists_cons_of_ne_nil hrest
    rw [joined_of_ne hne, List.foldl_cons,
      combine_of_ne (BinaryOperator.ne_assign_of_flattens ho) (fun _ => hne), foldl_combine ho]
    rfl

theorem exists_joined (id : FunctionId) (es : List Expr) : ∃ args, joined id es = call id args := by
  unfold joined
  split
  · split
    · exact ⟨_, rfl⟩
    · exact ⟨_, rfl⟩
  · exact ⟨_, rfl⟩

/-- A call is read back from a call of the same function only. -/
theorem exists_call_of_readBack {args : List Expr} (h : e.readBack minimal = .call id args) :
    ∃ args', e = .call id args' := by
  cases e with
  | call f arguments =>
      obtain ⟨args', hargs⟩ := exists_joined f (spread minimal f arguments)
      rw [readBack, hargs] at h
      split at h
      · cases h
      · split at h
        · exact ⟨arguments, by rw [(Expr.call.inj h).1]⟩
        · exact ⟨arguments, by rw [(Expr.call.inj h).1]⟩
  | _ =>
      rw [readBack] at h
      cases h

/-- A sum or product that does not begin with one of its kind is read as a call of its operands. -/
theorem readBack_of_first (ho : o.flattens = true) {first second : Expr} {others : List Expr}
    (h : ∀ args, first ≠ .call o.place args) :
    (call o.place (first :: second :: others)).readBack minimal =
      call o.place (spread minimal o.place (first :: second :: others)) := by
  have hfirst : ∀ args, first.readBack minimal ≠ .call o.place args := by
    intro args heq
    obtain ⟨args', rfl⟩ := exists_call_of_readBack heq
    exact h args' rfl
  rw [readBack_of_flattens ho (by simp), spread_cons, operands_of_ne fun _ args _ => h args,
    List.singleton_append, joined_of_ne hfirst]

end Expr

end Reckoner
