import Reckoner.Token.Lexer

/-!
Settling minus signs part by part.

What a minus sign stands for depends on the token before it only, and a minus sign that becomes part
of a numeral takes no further token with it. So a list of tokens can be settled in parts wherever a
part ends with an operand.
-/
namespace Reckoner

namespace Token

variable {t : Token} {free : Bool} {a b rest : List (Option Token)}

/-- The tokens with their minus signs settled and without gaps; `free` says whether a minus sign in
the beginning has no left operand. -/
def settle (free : Bool) (tokens : List (Option Token)) : List Token :=
  (foldSigns (markNegations free tokens)).filterMap id

/-- What leaves no room for an operand is no sign. -/
theorem not_sign_of_not_opensNegation {k : TokenKind} (h : k.opensNegation = false) :
    k.isMinus = false ∧ k.isNegate = false := by
  cases k <;> first | exact ⟨rfl, rfl⟩ | cases h

theorem not_opensNegation_of_isNumber {k : TokenKind} (h : k.isNumber = true) :
    k.opensNegation = false := by
  cases k <;> first | rfl | cases h

/-- The list ends with an operand. -/
def Closed (tokens : List (Option Token)) : Prop :=
  ∃ before t, tokens = before ++ [some t] ∧ t.kind.opensNegation = false

theorem closed_append_singleton (before : List (Option Token))
    (h : t.kind.opensNegation = false) : Closed (before ++ [some t]) :=
  ⟨before, t, rfl, h⟩

theorem Closed.append (h : Closed b) (a : List (Option Token)) : Closed (a ++ b) := by
  obtain ⟨before, t, rfl, ht⟩ := h
  exact ⟨a ++ before, t, by rw [List.append_assoc], ht⟩

theorem Closed.cons (h : Closed b) (x : Option Token) : Closed (x :: b) :=
  h.append [x]

theorem Closed.ne_nil (h : Closed a) : a ≠ [] := by
  obtain ⟨before, t, rfl, -⟩ := h
  simp

/-! ## Marking -/

/-- Whether a minus sign after the tokens has no left operand. -/
def freeAfter (free : Bool) : List (Option Token) → Bool
  | [] => free
  | none :: rest => freeAfter false rest
  | some t :: rest => freeAfter t.kind.opensNegation rest

/-- The token as it is marked. -/
def marked (free : Bool) (t : Token) : Token :=
  if t.kind.isMinus && free then { t with kind := .negate } else t

theorem opensNegation_marked (free : Bool) (t : Token) :
    (marked free t).kind.opensNegation = t.kind.opensNegation := by
  unfold marked
  split
  next h =>
    cases hk : t.kind <;> simp_all [TokenKind.isMinus, TokenKind.opensNegation]
  next => rfl

theorem isNumber_marked (free : Bool) (t : Token) : (marked free t).isNumber = t.isNumber := by
  unfold marked
  split
  next h =>
    cases hk : t.kind <;> simp_all [TokenKind.isMinus, TokenKind.isNumber, isNumber]
  next => rfl

theorem markNegations_cons (free : Bool) (t : Token) (rest : List (Option Token)) :
    markNegations free (some t :: rest) =
      some (marked free t) :: markNegations t.kind.opensNegation rest := by
  rw [← opensNegation_marked free t]
  rfl

theorem markNegations_append (free : Bool) (a b : List (Option Token)) :
    markNegations free (a ++ b) = markNegations free a ++ markNegations (freeAfter free a) b := by
  induction a generalizing free with
  | nil => rfl
  | cons x rest ih =>
      cases x with
      | none => exact congrArg (none :: ·) (ih false)
      | some t =>
          rw [List.cons_append, markNegations_cons, markNegations_cons, ih]
          rfl

theorem Closed.freeAfter (h : Closed a) (free : Bool) : freeAfter free a = false := by
  obtain ⟨before, t, rfl, ht⟩ := h
  induction before generalizing free with
  | nil => exact ht
  | cons x rest ih => cases x <;> exact ih _

/-! ## Folding -/

/-- Only a negation is folded into what follows. -/
theorem foldSigns_cons {x : Option Token} (h : ∀ t, x = some t → t.kind.isNegate = false)
    (rest : List (Option Token)) : foldSigns (x :: rest) = x :: foldSigns rest := by
  cases x with
  | none => cases rest <;> simp [foldSigns]
  | some t =>
      have ht := h t rfl
      cases rest with
      | nil => simp [foldSigns]
      | cons y rest => cases y <;> simp [foldSigns, ht]

/-- A negation is folded into a numeral only. -/
theorem foldSigns_cons_of_not_number (x : Option Token)
    (h : ∀ t, rest.head? = some (some t) → t.isNumber = false) :
    foldSigns (x :: rest) = x :: foldSigns rest := by
  cases x with
  | none => cases rest <;> simp [foldSigns]
  | some n =>
      cases rest with
      | nil => simp [foldSigns]
      | cons y rest =>
          cases y with
          | none => simp [foldSigns]
          | some t =>
              have ht := h t rfl
              simp [foldSigns, ht]

theorem foldSigns_append (ha : ∀ t, a.getLast? = some (some t) → t.kind.isNegate = false)
    (b : List (Option Token)) : foldSigns (a ++ b) = foldSigns a ++ foldSigns b := by
  induction a using foldSigns.induct with
  | case1 n u rest hfold ih =>
      rw [List.cons_append, List.cons_append, foldSigns, foldSigns, if_pos hfold, if_pos hfold,
        ih (fun t ht => ha t ?_)]
      · rfl
      · cases rest with
        | nil => cases ht
        | cons => simpa using ht
  | case2 n u rest hfold ih =>
      rw [List.cons_append, List.cons_append, foldSigns, foldSigns, if_neg hfold, if_neg hfold,
        ← List.cons_append, ih (fun t ht => ha t (by simpa using ht))]
      rfl
  | case3 x rest hnot ih =>
      cases rest with
      | nil =>
          have hx : ∀ t, x = some t → t.kind.isNegate = false := fun t ht => ha t (by simp [ht])
          rw [List.cons_append, List.nil_append, foldSigns_cons hx, foldSigns_cons hx]
          rfl
      | cons y rest =>
          have hcons : ∀ tail, foldSigns (x :: y :: tail) = x :: foldSigns (y :: tail) := by
            intro tail
            rw [foldSigns]
            intro n u _ hn hu
            cases hu
            exact hnot n u rest hn rfl
          rw [List.cons_append, List.cons_append, hcons, hcons, ← List.cons_append,
            ih (fun t ht => ha t (by simpa using ht))]
          rfl
  | case4 => rfl

theorem Closed.getLast?_markNegations (h : Closed a) (free : Bool) :
    ∀ t, (markNegations free a).getLast? = some (some t) → t.kind.isNegate = false := by
  obtain ⟨before, u, rfl, hu⟩ := h
  intro t ht
  rw [markNegations_append, markNegations_cons] at ht
  obtain rfl : marked (Token.freeAfter free before) u = t := by simpa [markNegations] using ht
  exact (not_sign_of_not_opensNegation ((opensNegation_marked _ u).trans hu)).2

/-! ## The tokens that there are in the end -/

theorem mem_markNegations (h : some t ∈ markNegations free a) :
    ∃ u, some u ∈ a ∧ (t = u ∨ u.kind.isMinus = true ∧ t = { u with kind := .negate }) := by
  induction a generalizing free with
  | nil => cases h
  | cons x rest ih =>
      cases x with
      | none =>
          have hrest : some t ∈ markNegations false rest := by simpa [markNegations] using h
          obtain ⟨u, hu, ht⟩ := ih hrest
          exact ⟨u, List.mem_cons_of_mem _ hu, ht⟩
      | some u =>
          rw [markNegations_cons] at h
          rcases List.mem_cons.1 h with h | h
          · refine ⟨u, List.mem_cons_self, ?_⟩
            obtain rfl := Option.some.inj h
            unfold marked
            split
            next hminus => exact .inr ⟨(Bool.and_eq_true_iff.1 hminus).1, rfl⟩
            next => exact .inl rfl
          · obtain ⟨u', hu', ht⟩ := ih h
            exact ⟨u', List.mem_cons_of_mem _ hu', ht⟩

/-- A token is kept, or it is a numeral with the negation right before it. -/
theorem exists_infix_of_mem_foldSigns (h : some t ∈ foldSigns a) :
    some t ∈ a ∨ ∃ n u, [some n, some u] <:+: a ∧ n.kind.isNegate = true ∧ u.isNumber = true ∧
      t = withMinus u n.position := by
  induction a using foldSigns.induct with
  | case1 n u rest hfold ih =>
      rw [foldSigns, if_pos hfold] at h
      simp only [List.mem_cons, reduceCtorEq, Option.some.injEq, false_or] at h
      rcases h with rfl | h
      · obtain ⟨hnegate, hnumber⟩ := Bool.and_eq_true_iff.1 hfold
        exact .inr ⟨n, u, ⟨[], rest, rfl⟩, hnegate, hnumber, rfl⟩
      · rcases ih h with h | ⟨n', u', hwithin, hfolded⟩
        · exact .inl (by simp [h])
        · exact .inr ⟨n', u', hwithin.trans ⟨[some n, some u], [], by simp⟩, hfolded⟩
  | case2 n u rest hfold ih =>
      rw [foldSigns, if_neg hfold] at h
      rcases List.mem_cons.1 h with h | h
      · exact .inl (by simp [h])
      · rcases ih h with h | ⟨n', u', hwithin, hfolded⟩
        · exact .inl (List.mem_cons_of_mem _ h)
        · exact .inr ⟨n', u', List.infix_cons hwithin, hfolded⟩
  | case3 x rest hnot ih =>
      rw [foldSigns] at h
      · rcases List.mem_cons.1 h with h | h
        · exact .inl (by simp [h])
        · rcases ih h with h | ⟨n', u', hwithin, hfolded⟩
          · exact .inl (List.mem_cons_of_mem _ h)
          · exact .inr ⟨n', u', List.infix_cons hwithin, hfolded⟩
      · exact hnot
  | case4 => cases h

theorem mem_foldSigns (h : some t ∈ foldSigns a) :
    some t ∈ a ∨ ∃ u position, some u ∈ a ∧ u.isNumber = true ∧ t = withMinus u position := by
  refine (exists_infix_of_mem_foldSigns h).imp_right ?_
  rintro ⟨n, u, hwithin, -, hnumber, rfl⟩
  exact ⟨u, n.position, hwithin.subset (by simp), hnumber, rfl⟩

/-- Tokens that are neighbours after the marking were so before. -/
theorem infix_of_markNegations {n u : Token} (h : [some n, some u] <:+: markNegations free a) :
    ∃ n' u', [some n', some u'] <:+: a ∧ (∃ free, n = marked free n') ∧
      ∃ free, u = marked free u' := by
  induction a generalizing free with
  | nil => simp [markNegations] at h
  | cons x rest ih =>
      cases x with
      | none =>
          rw [markNegations, List.infix_cons_iff] at h
          rcases h with h | h
          · simp at h
          · obtain ⟨n', u', hwithin, hmarked⟩ := ih h
            exact ⟨n', u', List.infix_cons hwithin, hmarked⟩
      | some n' =>
          rw [markNegations_cons, List.infix_cons_iff] at h
          rcases h with h | h
          · obtain ⟨hn, hrest⟩ := List.cons_prefix_cons.1 h
            cases rest with
            | nil => simp [markNegations] at hrest
            | cons y rest =>
                cases y with
                | none => simp [markNegations] at hrest
                | some u' =>
                    rw [markNegations_cons] at hrest
                    obtain ⟨hu, -⟩ := List.cons_prefix_cons.1 hrest
                    exact ⟨n', u', ⟨[], rest, rfl⟩, ⟨_, Option.some.inj hn⟩, _, Option.some.inj hu⟩
          · obtain ⟨n', u', hwithin, hmarked⟩ := ih h
            exact ⟨n', u', List.infix_cons hwithin, hmarked⟩

theorem marked_of_isNumber (h : t.isNumber = true) (free : Bool) : marked free t = t := by
  unfold marked
  split
  next hminus => cases hk : t.kind <;> simp_all [TokenKind.isMinus, TokenKind.isNumber, isNumber]
  next => rfl

/-- A number of a text is one of the draft, or such a one with the minus sign right before
it. -/
theorem exists_infix_of_mem_settleSigns (h : some t ∈ settleSigns a) (hnumber : t.isNumber = true) :
    some t ∈ a ∨ ∃ n u, [some n, some u] <:+: a ∧ (n.kind.isMinus = true ∨ n.kind.isNegate = true) ∧
      u.isNumber = true ∧ t = withMinus u n.position := by
  unfold settleSigns at h
  split at h
  · exact .inl h
  · rcases exists_infix_of_mem_foldSigns h with h | ⟨n, u, hwithin, hnegate, hu, rfl⟩
    · obtain ⟨u, hu, rfl | ⟨-, rfl⟩⟩ := mem_markNegations h
      · exact .inl hu
      · cases hnumber
    · obtain ⟨n', u', hbefore, ⟨free, rfl⟩, free', rfl⟩ := infix_of_markNegations hwithin
      rw [isNumber_marked] at hu
      rw [marked_of_isNumber hu]
      refine .inr ⟨n', u', hbefore, ?_, hu, ?_⟩
      · unfold marked at hnegate
        split at hnegate
        next hminus => exact .inl (Bool.and_eq_true_iff.1 hminus).1
        next => exact .inr hnegate
      · unfold marked
        split <;> rfl

/-- A token of a text is a token of the draft, perhaps a minus sign that has become a negation, or a
numeral with the minus sign in front of it. -/
theorem mem_settleSigns (h : some t ∈ settleSigns a) :
    (∃ u, some u ∈ a ∧ (t = u ∨ u.kind.isMinus = true ∧ t = { u with kind := .negate })) ∨
      ∃ u position, some u ∈ a ∧ u.isNumber = true ∧ t = withMinus u position := by
  unfold settleSigns at h
  split at h
  · exact .inl ⟨t, h, .inl rfl⟩
  · rcases mem_foldSigns h with h | ⟨u, position, hu, hnumber, rfl⟩
    · exact .inl (mem_markNegations h)
    · right
      obtain ⟨u', hu', rfl | ⟨-, rfl⟩⟩ := mem_markNegations hu
      · exact ⟨u, position, hu', hnumber, rfl⟩
      · cases hnumber

/-! ## Numbers stay -/

theorem mem_markNegations_of_number (hnumber : t.isNumber = true) (h : some t ∈ a) :
    some t ∈ markNegations free a := by
  induction a generalizing free with
  | nil => cases h
  | cons x rest ih =>
      cases x with
      | none =>
          rw [markNegations]
          exact List.mem_cons_of_mem _ (ih (by simpa using h))
      | some u =>
          rw [markNegations_cons]
          rcases List.mem_cons.1 h with h | h
          · obtain rfl := Option.some.inj h
            rw [marked_of_isNumber hnumber]
            exact List.mem_cons_self
          · exact List.mem_cons_of_mem _ (ih h)

theorem mem_foldSigns_of_number (hnumber : t.isNumber = true) (h : some t ∈ a) :
    some t ∈ foldSigns a ∨ ∃ position, some (withMinus t position) ∈ foldSigns a := by
  induction a using foldSigns.induct with
  | case1 n u rest hfold ih =>
      rw [foldSigns, if_pos hfold]
      have hne : t ≠ n := by
        rintro rfl
        have hnegate := (Bool.and_eq_true_iff.1 hfold).1
        cases hk : t.kind <;> simp_all [TokenKind.isNegate, TokenKind.isNumber, isNumber]
      have hrest : t = u ∨ some t ∈ rest := by simpa [hne] using h
      rcases hrest with rfl | hrest
      · exact .inr ⟨n.position, by simp⟩
      · exact (ih hrest).imp (fun h => by simp [h]) fun ⟨position, h⟩ => ⟨position, by simp [h]⟩
  | case2 n u rest hfold ih =>
      rw [foldSigns, if_neg hfold]
      rcases List.mem_cons.1 h with h | h
      · exact .inl (by simp [h])
      · exact (ih h).imp (List.mem_cons_of_mem _) fun ⟨position, h⟩ =>
          ⟨position, List.mem_cons_of_mem _ h⟩
  | case3 x rest hnot ih =>
      rw [foldSigns]
      · rcases List.mem_cons.1 h with h | h
        · exact .inl (by simp [h])
        · exact (ih h).imp (List.mem_cons_of_mem _) fun ⟨position, h⟩ =>
            ⟨position, List.mem_cons_of_mem _ h⟩
      · exact hnot
  | case4 => cases h

/-- A number of the draft is a token of the text, perhaps with a minus sign in front of it. -/
theorem mem_settleSigns_of_number (hnumber : t.isNumber = true) (h : some t ∈ a) :
    some t ∈ settleSigns a ∨ ∃ position, some (withMinus t position) ∈ settleSigns a := by
  unfold settleSigns
  split
  · exact .inl h
  · exact mem_foldSigns_of_number hnumber (mem_markNegations_of_number hnumber h)

/-! ## Settling -/

/-- A list is settled in two parts where the first one ends with an operand. -/
theorem Closed.settle_append (h : Closed a) (free : Bool) (b : List (Option Token)) :
    settle free (a ++ b) = settle free a ++ settle false b := by
  rw [settle, markNegations_append, h.freeAfter, foldSigns_append (h.getLast?_markNegations free),
    List.filterMap_append]
  rfl

theorem settle_gap (free : Bool) (rest : List (Option Token)) :
    settle free (none :: rest) = settle false rest := by
  rw [settle, markNegations, foldSigns_cons (by simp)]
  rfl

/-- A token that is no minus sign stays what it is, and so does a minus sign between operands. -/
theorem settle_cons (hminus : t.kind.isMinus = true → free = false)
    (hnegate : t.kind.isNegate = false) (rest : List (Option Token)) :
    settle free (some t :: rest) = t :: settle t.kind.opensNegation rest := by
  have hmarked : marked free t = t := by
    unfold marked
    split
    next h =>
      obtain ⟨hm, hf⟩ := Bool.and_eq_true_iff.1 h
      rw [hminus hm] at hf
      cases hf
    next => rfl
  rw [settle, markNegations_cons, hmarked, foldSigns_cons (by simpa using hnegate)]
  rfl

/-- A minus sign without a left operand becomes part of a numeral that follows. -/
theorem settle_minus_number (hminus : t.kind = .minus) {u : Token} (hu : u.isNumber = true)
    (rest : List (Option Token)) :
    settle true (some t :: some u :: rest) = withMinus u t.position :: settle false rest := by
  have hopens : u.kind.opensNegation = false := not_opensNegation_of_isNumber hu
  rw [settle, markNegations_cons, markNegations_cons, marked_of_isNumber hu, hopens]
  have hnegate : (marked true t).kind.isNegate = true := by simp [marked, hminus, TokenKind.isMinus,
    TokenKind.isNegate]
  have hposition : (marked true t).position = t.position := by
    unfold marked
    split <;> rfl
  rw [foldSigns, if_pos (by simp [hnegate, hu]), hposition]
  rfl

/-- A minus sign without a left operand becomes a negation of anything else that follows. -/
theorem settle_minus (hminus : t.kind = .minus)
    (h : ∀ u, rest.head? = some (some u) → u.isNumber = false) :
    settle true (some t :: rest) = { t with kind := .negate } :: settle true rest := by
  have hmarked : marked true t = { t with kind := .negate } := by
    simp [marked, hminus, TokenKind.isMinus]
  have hhead : ∀ u, (markNegations true rest).head? = some (some u) → u.isNumber = false := by
    intro u hu
    cases rest with
    | nil => cases hu
    | cons x rest =>
        cases x with
        | none => cases hu
        | some t' =>
            rw [markNegations_cons] at hu
            obtain rfl : marked true t' = u := by simpa using hu
            rw [isNumber_marked]
            exact h t' rfl
  rw [settle, markNegations_cons, hmarked, hminus,
    foldSigns_cons_of_not_number _ (by simpa [TokenKind.opensNegation] using hhead)]
  rfl

theorem settle_singleton (h : t.kind.opensNegation = false) (free : Bool) :
    settle free [some t] = [t] := by
  obtain ⟨hminus, hnegate⟩ := not_sign_of_not_opensNegation h
  rw [settle_cons (by simp [hminus]) hnegate]
  rfl

/-- A list of tokens that ends with an operand is settled to the tokens of the text. -/
theorem Closed.filterMap_settleSigns (h : Closed a) :
    (settleSigns a).filterMap id = settle true a := by
  unfold settleSigns
  split
  next hshort =>
    obtain ⟨before, t, rfl, ht⟩ := h
    have hlength : before.length = 0 := by
      rw [List.length_append, List.length_singleton] at hshort
      omega
    obtain rfl : before = [] := List.length_eq_zero_iff.1 hlength
    rw [List.nil_append, settle_singleton ht]
    rfl
  next => rfl

end Token

end Reckoner
