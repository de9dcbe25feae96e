import Reckoner.Proofs.Token.Draft

/-!
Drafts without their gaps.

A gap keeps a numeral from being put together over it while a text is cut up. Afterwards gaps mean
nothing: a gap only follows a run, every run ends with an operand, and behind an operand a minus
sign has a left operand with a gap before it or without one. So the tokens of a text are those of
its draft with their minus signs settled, and `Settles` lists all that happens to them on the way.
-/
namespace Reckoner

namespace Token

variable {free : Bool} {draft : Draft} {run text : List Char} {t u : Token}
  {tokens out rest : List Token}

/-! ## The last token of a run -/

theorem ofRun_symbol {c : Char} (h : isSymbol c = true) (position : Nat) :
    ofRun [c] position = [classify [c] position] := by
  simp [ofRun, (kindOf_symbol h).2.2]

/-- What a run spells leaves no room for an operand. -/
theorem not_opensNegation_of_plain (h : ∀ c ∈ text, IsPlain c) :
    (kindOf text).opensNegation = false := by
  by_cases hnumber : (kindOf text).isNumber = true
  · exact not_opensNegation_of_isNumber hnumber
  · rw [kindOf_of_isIdent (isIdent_of_plain h (Bool.eq_false_iff.2 hnumber))]
    rfl

/-- The last token of a run is an operand. -/
theorem exists_operand_of_ofRun (h : ∀ c ∈ run, IsPlain c) (position : Nat) :
    ∃ before t, ofRun run position = before ++ [t] ∧ t.kind.opensNegation = false := by
  rcases ofRun_cases run position with ⟨numeral, name, hsplit, hrun⟩ | ⟨-, hrun⟩
  · obtain ⟨rfl, -⟩ := splitNumeral?_spec hsplit
    have hname := not_opensNegation_of_plain fun c hc => h c (List.mem_append_right _ hc)
    exact ⟨[_], _, hrun, hname⟩
  · exact ⟨[], _, hrun, not_opensNegation_of_plain h⟩

/-! ## Gaps -/

/-- The tokens of a draft in their order. -/
def gapless (draft : Draft) : List Token :=
  draft.reverse.filterMap id

@[simp] theorem gapless_nil : gapless [] = [] :=
  rfl

@[simp] theorem gapless_gap (draft : Draft) : gapless (none :: draft) = gapless draft := by
  simp [gapless]

@[simp] theorem gapless_cons (t : Token) (draft : Draft) :
    gapless (some t :: draft) = gapless draft ++ [t] := by
  simp [gapless]

@[simp] theorem gapless_append (tokens : List Token) (draft : Draft) :
    gapless ((tokens.map some).reverse ++ draft) = gapless draft ++ tokens := by
  simp [gapless]

/-- Every gap of the draft follows an operand. -/
inductive Parted : Draft → Prop
  | nil : Parted []
  | token {draft : Draft} (t : Token) (h : Parted draft) : Parted (some t :: draft)
  | gap {draft : Draft} {t : Token} (ht : t.kind.opensNegation = false)
      (h : Parted (some t :: draft)) : Parted (none :: some t :: draft)

theorem Parted.tail {x : Option Token} (h : Parted (x :: draft)) : Parted draft := by
  cases h with
  | token _ h => exact h
  | gap _ h => exact h

theorem Parted.drop (h : Parted draft) (n : Nat) : Parted (draft.drop n) := by
  induction n generalizing draft with
  | zero => exact h
  | succ n ih =>
      cases draft with
      | nil => exact h
      | cons x draft => exact ih h.tail

theorem Parted.append (h : Parted draft) (tokens : List Token) :
    Parted ((tokens.map some).reverse ++ draft) := by
  induction tokens generalizing draft with
  | nil => exact h
  | cons t tokens ih =>
      rw [List.map_cons, List.reverse_cons, List.append_assoc]
      exact ih (h.token t)

/-- A run can be entered, and a gap may follow it. -/
theorem Parted.enter_run (h : Parted draft) (hplain : ∀ c ∈ run, IsPlain c) (position : Nat) :
    Parted (enter draft (.text run position)) ∧
      Parted (none :: enter draft (.text run position)) := by
  have hlast : ∃ t before, enter draft (.text run position) = some t :: before ∧
      t.kind.opensNegation = false ∧ Parted before := by
    rcases enter_cases draft run position with ⟨n, t, -, -, hfuse, henter⟩ | henter
    · obtain ⟨-, -, -, -, -, hdouble⟩ := fuse?_eq_some hfuse
      exact ⟨t, draft.drop n, henter,
        not_opensNegation_of_isNumber (isNumber_of_isDouble hdouble), h.drop n⟩
    · obtain ⟨before, t, hrun, ht⟩ := exists_operand_of_ofRun hplain position
      refine ⟨t, (before.map some).reverse ++ draft, ?_, ht, h.append before⟩
      rw [henter, hrun]
      simp
  obtain ⟨t, before, henter, ht, hbefore⟩ := hlast
  rw [henter]
  exact ⟨hbefore.token t, .gap ht (hbefore.token t)⟩

theorem Parted.closed {k : Cursor} (h : Parted k.draft) (hplain : ∀ c ∈ k.run, IsPlain c) :
    Parted k.closed := by
  by_cases hrun : k.run = []
  · simpa [Cursor.closed, Piece.ofRun, hrun] using h
  · rw [k.closed_of_ne_nil hrun]
    exact (h.enter_run hplain k.start).1

theorem Parted.parted {k : Cursor} (h : Parted k.draft) (hplain : ∀ c ∈ k.run, IsPlain c) :
    Parted k.parted := by
  unfold Cursor.parted
  split
  next => exact h
  next hrun =>
    rw [k.closed_of_ne_nil hrun]
    exact (h.enter_run hplain k.start).2

/-- In the draft of a text every gap follows an operand. -/
theorem parted_finish (text : List Char) : Parted ((Cursor.after [] 0).finish text) := by
  have hfinal : ∃ l : Cursor, (Parted l.draft ∧ ∀ c ∈ l.run, IsPlain c) ∧
      (Cursor.after [] 0).finish text = l.closed := by
    refine Cursor.finish_invariant (I := fun _ k => Parted k.draft ∧ ∀ c ∈ k.run, IsPlain c)
      ?_ ?_ ?_ [] ⟨.nil, by simp [Cursor.after]⟩ text
    · rintro _ k c - ⟨h, hplain⟩
      exact ⟨h.parted hplain, by simp [Cursor.after]⟩
    · rintro _ k c - ⟨h, hplain⟩
      exact ⟨(h.closed hplain).token _, by simp [Cursor.after]⟩
    · rintro _ k c hc ⟨h, hplain⟩
      exact ⟨h, List.forall_mem_append.2 ⟨hplain, by simpa using hc⟩⟩
  obtain ⟨l, ⟨hparted, hplain⟩, hfinish⟩ := hfinal
  rw [hfinish]
  exact hparted.closed hplain

/-- A draft is settled as if it had no gaps. -/
theorem Parted.settle_reverse (h : Parted draft) (free : Bool) (rest : List (Option Token)) :
    settle free (draft.reverse ++ rest) = settle free ((gapless draft).map some ++ rest) := by
  induction h generalizing rest with
  | nil => rfl
  | token t _ ih => simpa using ih (some t :: rest)
  | @gap draft t ht _ ih =>
      have hclosed : Closed (some t :: draft).reverse := by
        rw [List.reverse_cons]
        exact closed_append_singleton draft.reverse ht
      rw [List.reverse_cons, List.append_assoc, List.singleton_append, hclosed.settle_append,
        settle_gap, ← hclosed.settle_append, ih, gapless_gap]

/-! ## Settling tokens -/

/-- The tokens of a text before its minus signs are settled. -/
def drafted (text : String) : List Token :=
  gapless ((pieces [] 0 0 text.toList).foldl enter [])

/-- The tokens with their minus signs settled; a lone token is left as it is. -/
def settleTokens (tokens : List Token) : List Token :=
  if tokens.length < 2 then tokens else settle true (tokens.map some)

/-- The tokens of a text that is read to a cursor from the beginning. -/
theorem drafted_eq_of_moves {text : String} {k : Cursor} (h : Moves text.toList (.after [] 0) k) :
    drafted text = gapless k.closed := by
  rw [← h.closed]
  rfl

/-- A draft of at most one token is that token, or the token is an operand with a gap behind it. -/
theorem Parted.short_cases (h : Parted draft) (hshort : (gapless draft).length < 2) :
    draft = [] ∨ (∃ t, draft = [some t]) ∨
      ∃ t, gapless draft = [t] ∧ 2 ≤ draft.length ∧ t.kind.opensNegation = false := by
  have hnil : ∀ {draft : Draft} {t : Token}, (gapless (some t :: draft)).length < 2 →
      gapless draft = [] := by
    intro draft t hshort
    rw [gapless_cons, List.length_append, List.length_singleton] at hshort
    exact List.length_eq_zero_iff.1 (by omega)
  cases h with
  | nil => exact .inl rfl
  | @token draft t h =>
      have hrest := hnil hshort
      obtain rfl : draft = [] := by cases h <;> simp_all
      exact .inr (.inl ⟨t, rfl⟩)
  | @gap draft t ht h =>
      rw [gapless_gap] at hshort ⊢
      exact .inr (.inr ⟨t, by simp [hnil hshort], by simp, ht⟩)

/-- The tokens of a text are those of its draft with their minus signs settled. -/
theorem scan_eq (text : String) : scan text = settleTokens (drafted text) := by
  have hscan : scan text =
      (settleSigns ((Cursor.after [] 0).finish text.toList).reverse).filterMap id := rfl
  have hparted := parted_finish text.toList
  have hdrafted : drafted text = gapless ((Cursor.after [] 0).finish text.toList) := rfl
  rw [hscan, hdrafted, settleTokens]
  generalize (Cursor.after [] 0).finish text.toList = draft at hparted
  have hsettle : settle true draft.reverse = settle true ((gapless draft).map some) := by
    simpa using hparted.settle_reverse true []
  have hlong : 2 ≤ draft.length → (settleSigns draft.reverse).filterMap id =
      settle true ((gapless draft).map some) := by
    intro hlength
    rw [settleSigns, if_neg (by rw [List.length_reverse]; omega)]
    exact hsettle
  by_cases hshort : (gapless draft).length < 2
  · rw [if_pos hshort]
    obtain rfl | ⟨t, rfl⟩ | ⟨t, hgapless, hlength, ht⟩ := hparted.short_cases hshort
    · rfl
    · rfl
    · rw [hlong hlength, hgapless]
      exact settle_singleton ht true
  · have hlength : (gapless draft).length ≤ draft.length :=
      Nat.le_trans (List.length_filterMap_le id draft.reverse) (by simp)
    rw [if_neg hshort, hlong (by omega)]

/-- What can happen to tokens when their minus signs are settled: they stay, a minus sign becomes
part of the number behind it, or it becomes a negation of something else. -/
inductive Settles : Bool → List Token → List Token → Prop
  | nil {free : Bool} : Settles free [] []
  | keep {free : Bool} {t : Token} {rest out : List Token} (hminus : t.kind = .minus → free = false)
      (hnegate : t.kind.isNegate = false) (h : Settles t.kind.opensNegation rest out) :
      Settles free (t :: rest) (t :: out)
  | fold {position : Nat} {u : Token} {rest out : List Token} (hu : u.isNumber = true)
      (h : Settles false rest out) :
      Settles true (⟨.minus, "-", position⟩ :: u :: rest) (withMinus u position :: out)
  | negate {position : Nat} {rest out : List Token} (hrest : ∀ u ∈ rest.head?, u.isNumber = false)
      (h : Settles true rest out) :
      Settles true (⟨.minus, "-", position⟩ :: rest) (⟨.negate, "-", position⟩ :: out)

/-- What a token stands for, and its text. -/
def content (t : Token) : TokenKind × String :=
  (t.kind, t.text)

theorem isNegate_kindOf (text : List Char) : (kindOf text).isNegate = false := by
  have hcases := kindOf_cases text
  generalize kindOf text = k at hcases
  rcases hcases with hsymbol | hplain
  · cases hsymbol with
    | binary o => cases o <;> rfl
    | _ => rfl
  · cases hplain <;> rfl

theorem isMinus_iff {k : TokenKind} : k.isMinus = true ↔ k = .minus := by
  cases k <;> simp [TokenKind.isMinus]

/-- A token as drafts have it: it stands for its own text, and a number has no sign in front. -/
structure Drafted (t : Token) : Prop where
  kind : t.kind = kindOf t.text.toList
  ne_nil : t.text.toList ≠ []
  unsigned : t.isNumber = true → ∀ c ∈ t.text.toList.head?, c ≠ '+' ∧ c ≠ '-'

theorem drafted_of_mem {text : String} (h : t ∈ drafted text) : Drafted t := by
  obtain ⟨b, hlaid⟩ := exists_laid text
  have hmem : some t ∈ (pieces [] 0 0 text.toList).foldl enter [] := by
    simpa [drafted, gapless] using h
  obtain ⟨b', rest, -, ht⟩ := hlaid.exists_of_mem hmem
  have hkind : t.kind = kindOf t.text.toList := by
    cases ht <;> simp [classify]
  exact ⟨hkind, ht.text_ne_nil, fun hnumber => (hlaid.number hmem hnumber).2⟩

theorem eq_of_minus (h : Drafted t) (hminus : t.kind = .minus) :
    t = ⟨.minus, "-", t.position⟩ := by
  have htext : t.text = BinaryOperator.subtract.symbol :=
    Spelled.text_eq_symbol (.inl h.kind) (o := .subtract) hminus
  cases t
  simp_all [BinaryOperator.symbol]

theorem settles_settle (free : Bool) (tokens : List Token) (h : ∀ t ∈ tokens, Drafted t) :
    Settles free tokens (settle free (tokens.map some)) := by
  match tokens with
  | [] => exact .nil
  | t :: rest =>
    obtain ⟨ht, hrest⟩ := List.forall_mem_cons.1 h
    by_cases hfree : t.kind = .minus ∧ free = true
    · obtain ⟨hminus, rfl⟩ := hfree
      by_cases hnumber : ∃ u after, rest = u :: after ∧ u.isNumber = true
      · obtain ⟨u, after, rfl, hu⟩ := hnumber
        have hafter := settles_settle false after fun v hv => hrest v (.tail _ hv)
        rw [List.map_cons, List.map_cons, settle_minus_number hminus hu, eq_of_minus ht hminus]
        exact .fold hu hafter
      · have hhead : ∀ u ∈ rest.head?, u.isNumber = false := by
          intro u hu
          obtain ⟨after, hafter⟩ := List.head?_eq_some_iff.1 hu
          exact Bool.eq_false_iff.2 fun hnot => hnumber ⟨u, after, hafter, hnot⟩
        have hnext := settles_settle true rest hrest
        rw [List.map_cons, settle_minus hminus (by simpa using hhead)]
        rw [eq_of_minus ht hminus]
        exact .negate hhead hnext
    · have hnext := settles_settle t.kind.opensNegation rest hrest
      have hnegate : t.kind.isNegate = false := ht.kind ▸ isNegate_kindOf _
      have htaken : t.kind = .minus → free = false := by simpa using hfree
      rw [List.map_cons, settle_cons (fun hminus => htaken (isMinus_iff.1 hminus)) hnegate]
      exact .keep htaken hnegate hnext
termination_by tokens.length

/-- An operand stays. -/
theorem Settles.operand (ht : t.kind.opensNegation = false) (h : Settles false rest out) :
    Settles free (t :: rest) (t :: out) := by
  obtain ⟨hminus, hnegate⟩ := not_sign_of_not_opensNegation ht
  refine .keep (fun hkind => ?_) hnegate (ht ▸ h)
  rw [hkind] at hminus
  cases hminus

/-- Nothing else can happen to them. -/
theorem Settles.eq_settle (h : Settles free tokens out) : out = settle free (tokens.map some) := by
  induction h with
  | nil => rfl
  | keep hminus hnegate _ ih =>
      rw [List.map_cons, settle_cons (fun h => hminus (isMinus_iff.1 h)) hnegate, ih]
  | fold hu _ ih => rw [List.map_cons, List.map_cons, settle_minus_number rfl hu, ih]
  | negate hrest _ ih => rw [List.map_cons, settle_minus rfl (by simpa using hrest), ih]

theorem Settles.scan_eq {text : String} (h : Settles true tokens out)
    (hdrafted : drafted text = tokens) (hlong : 2 ≤ tokens.length) : scan text = out := by
  rw [Token.scan_eq, hdrafted, settleTokens, if_neg (by omega), h.eq_settle]

end Token

end Reckoner
