import Reckoner.Proofs.Token.Spelling

/-!
Reading a text character by character.

A cursor stands somewhere in a text. It holds the draft of what is before it, but for the run of
characters that ends at the cursor. How a text is cut into tokens can be followed along its parts
with `Moves`, which says that reading characters takes one cursor to another whatever comes next.
-/
namespace Reckoner

namespace Token

/-- A character that belongs to a run. -/
def IsPlain (c : Char) : Prop :=
  isBlank c = false ∧ isSymbol c = false

instance (c : Char) : Decidable (IsPlain c) :=
  inferInstanceAs (Decidable (_ ∧ _))

/-- A place in a text, with the draft of the text before it except for the run that ends there, and
with this run and the place where it begins. -/
structure Cursor where
  draft : Draft
  run : List Char
  start : Nat
  position : Nat

/-- The place after the draft, where no run has begun. -/
def Cursor.after (draft : Draft) (position : Nat) : Cursor :=
  ⟨draft, [], position, position⟩

/-- The draft in the end if this text is the rest. -/
def Cursor.finish (k : Cursor) (rest : List Char) : Draft :=
  (pieces k.run k.start k.position rest).foldl enter k.draft

/-- The draft with the run in it. -/
def Cursor.closed (k : Cursor) : Draft :=
  (Piece.ofRun k.run k.start).foldl enter k.draft

/-- The draft after a blank: the run, if there is one, has ended and leaves a gap. -/
def Cursor.parted (k : Cursor) : Draft :=
  if k.run = [] then k.draft else none :: k.closed

/-- Reading the text takes one cursor to the other. -/
def Moves (text : List Char) (k l : Cursor) : Prop :=
  ∀ rest, k.finish (text ++ rest) = l.finish rest

variable {text more : List Char} {k l m : Cursor}

@[simp] theorem Cursor.closed_after (draft : Draft) (position : Nat) :
    (Cursor.after draft position).closed = draft :=
  rfl

theorem Cursor.closed_of_ne_nil (h : k.run ≠ []) :
    k.closed = enter k.draft (.text k.run k.start) := by
  simp [closed, Piece.ofRun, h]

theorem Cursor.parted_eq (k : Cursor) : k.parted = k.closed ∨ k.parted = none :: k.closed := by
  unfold parted
  split
  next h => exact .inl (by simp [closed, Piece.ofRun, h])
  next => exact .inr rfl

theorem Moves.append (h : Moves text k l) (h' : Moves more l m) : Moves (text ++ more) k m := by
  intro rest
  rw [List.append_assoc, h, h']

theorem Moves.closed (h : Moves text k l) : k.finish text = l.closed := by
  have hend := h []
  rwa [List.append_nil] at hend

theorem moves_blank {c : Char} (h : isBlank c = true) (k : Cursor) :
    Moves [c] k (.after k.parted (k.position + c.utf8Size)) := by
  intro rest
  rw [List.cons_append, List.nil_append, Cursor.finish, pieces]
  simp only [h, if_true, List.foldl_append]
  unfold Cursor.parted
  split
  next hrun =>
    simp only [Piece.ofRun, hrun, if_true]
    rfl
  next => rfl

/-- A symbol is neither a number nor a name. -/
theorem kindOf_symbol {c : Char} (h : isSymbol c = true) :
    (kindOf [c]).isInt = false ∧ (kindOf [c]).isNumber = false ∧ (kindOf [c]).isIdent = false := by
  simp only [isSymbol, Bool.or_eq_true, beq_iff_eq] at h
  rcases h with (((((((rfl | rfl) | rfl) | rfl) | rfl) | rfl) | rfl) | rfl) | rfl <;>
    exact ⟨rfl, rfl, rfl⟩

/-- A symbol is neither a blank nor part of an unsigned numeral. -/
theorem isSymbol_spec {c : Char} (h : isSymbol c = true) :
    isBlank c = false ∧ c.isDigit = false ∧ c ≠ '.' := by
  simp only [isSymbol, Bool.or_eq_true, beq_iff_eq] at h
  rcases h with (((((((rfl | rfl) | rfl) | rfl) | rfl) | rfl) | rfl) | rfl) | rfl <;>
    exact ⟨rfl, rfl, by decide⟩

theorem isPlain_of_isDigit {c : Char} (h : c.isDigit = true) : IsPlain c := by
  constructor
  · refine Bool.eq_false_iff.2 fun hblank => ?_
    simp only [isBlank, Bool.or_eq_true, beq_iff_eq] at hblank
    rcases hblank with ((rfl | rfl) | rfl) | rfl <;> cases h
  · refine Bool.eq_false_iff.2 fun hsymbol => ?_
    rw [(isSymbol_spec hsymbol).2.1] at h
    cases h

theorem moves_symbol {c : Char} (h : isSymbol c = true) (k : Cursor) :
    Moves [c] k (.after (some (classify [c] k.position) :: k.closed) (k.position + c.utf8Size)) := by
  intro rest
  obtain ⟨hint, -, hident⟩ := kindOf_symbol h
  have henter : enter k.closed (.text [c] k.position) =
      some (classify [c] k.position) :: k.closed := by
    simp only [enter, classify, hint, hident, Bool.false_eq_true, if_false]
  rw [List.cons_append, List.nil_append, Cursor.finish, pieces]
  simp only [(isSymbol_spec h).1, h, Bool.false_eq_true, if_false, if_true,
    List.foldl_append, List.foldl_cons]
  change (pieces [] _ _ rest).foldl enter (enter k.closed (.text [c] k.position)) = _
  rw [henter]
  rfl

theorem moves_char {c : Char} (h : IsPlain c) (k : Cursor) :
    Moves [c] k { k with run := k.run ++ [c], position := k.position + c.utf8Size } := by
  intro rest
  rw [List.cons_append, List.nil_append, Cursor.finish, pieces]
  simp only [h.1, h.2, Bool.false_eq_true, if_false]
  rfl

theorem moves_plain (h : ∀ c ∈ text, IsPlain c) (k : Cursor) :
    ∃ position, Moves text k { k with run := k.run ++ text, position } := by
  induction text generalizing k with
  | nil => exact ⟨k.position, fun rest => by simp⟩
  | cons c text ih =>
      obtain ⟨position, hmoves⟩ := ih (fun c hc => h c (List.mem_cons_of_mem _ hc))
        { k with run := k.run ++ [c], position := k.position + c.utf8Size }
      refine ⟨position, ?_⟩
      have hboth := (moves_char (h c List.mem_cons_self) k).append hmoves
      rwa [List.append_assoc] at hboth

/-- What every character preserves holds of the cursor in the end, with what has been read. -/
theorem Cursor.finish_invariant {I : List Char → Cursor → Prop}
    (hblank : ∀ {before : List Char} {k : Cursor} {c : Char}, isBlank c = true → I before k →
      I (before ++ [c]) (.after k.parted (k.position + c.utf8Size)))
    (hsymbol : ∀ {before : List Char} {k : Cursor} {c : Char}, isSymbol c = true → I before k →
      I (before ++ [c])
        (.after (some (classify [c] k.position) :: k.closed) (k.position + c.utf8Size)))
    (hplain : ∀ {before : List Char} {k : Cursor} {c : Char}, IsPlain c → I before k →
      I (before ++ [c]) { k with run := k.run ++ [c], position := k.position + c.utf8Size })
    (before : List Char) (h : I before k) (text : List Char) :
    ∃ l, I (before ++ text) l ∧ k.finish text = l.closed := by
  induction text generalizing before k with
  | nil => exact ⟨k, by rwa [List.append_nil], rfl⟩
  | cons c rest ih =>
      have hnext : ∀ {l : Cursor}, I (before ++ [c]) l → Moves [c] k l →
          ∃ m, I (before ++ c :: rest) m ∧ k.finish (c :: rest) = m.closed := by
        intro l hl hmoves
        obtain ⟨m, hm, hfinish⟩ := ih _ hl
        rw [List.append_assoc] at hm
        exact ⟨m, hm, (hmoves rest).trans hfinish⟩
      by_cases hb : isBlank c = true
      · exact hnext (hblank hb h) (moves_blank hb k)
      · by_cases hs : isSymbol c = true
        · exact hnext (hsymbol hs h) (moves_symbol hs k)
        · have hc : IsPlain c := ⟨Bool.eq_false_iff.2 hb, Bool.eq_false_iff.2 hs⟩
          exact hnext (hplain hc h) (moves_char hc k)

/-- The tokens of a text that is read to a cursor from the beginning. -/
theorem scan_eq_of_moves {text : String} (h : Moves text.toList (.after [] 0) k) :
    scan text = (settleSigns k.closed.reverse).filterMap id := by
  rw [← h.closed]
  rfl

end Token

end Reckoner
