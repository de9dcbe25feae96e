import Reckoner.Proofs.Token.Gaps
import Reckoner.Proofs.Token.Places

/-!
What the tokens of a text write.

The tokens of a text write all of its characters but the blanks, in their order, and each token
begins at the byte where the first of its characters stands. `Written` says this of the tokens of a
draft. It stays true when a minus sign becomes part of the number behind it, because nothing but
blanks stands between the two.
-/
namespace Reckoner

namespace Token

variable {b b' free : Bool} {position : Nat} {t : Token} {tokens more out : List Token}
  {draft : Draft} {source chars behind blanks : List Char} {c : Char}
  {before after : List Token}

/-- The characters that are no blanks. -/
def withoutBlanks (chars : List Char) : List Char :=
  chars.filter fun c => !isBlank c

@[simp] theorem withoutBlanks_append (first second : List Char) :
    withoutBlanks (first ++ second) = withoutBlanks first ++ withoutBlanks second :=
  List.filter_append first second

theorem withoutBlanks_cons (h : isBlank c = false) (chars : List Char) :
    withoutBlanks (c :: chars) = c :: withoutBlanks chars := by
  simp [withoutBlanks, h]

theorem withoutBlanks_of_blanks (h : Blanks chars) : withoutBlanks chars = [] :=
  List.filter_eq_nil_iff.2 fun c hc => by simp [h c hc]

theorem withoutBlanks_of_no_blank (h : ∀ c ∈ chars, isBlank c = false) :
    withoutBlanks chars = chars :=
  List.filter_eq_self.2 fun c hc => by simp [h c hc]

/-- The tokens are written in the characters from the byte `position` on. Blanks may stand before
each token, and inside it behind its first character. -/
inductive Written : Nat → List Token → List Char → Prop
  | nil {position : Nat} {blanks : List Char} (hblanks : Blanks blanks) : Written position [] blanks
  | cons {position : Nat} {t : Token} {tokens : List Token} {blanks written rest : List Char}
      {c : Char} (hblanks : Blanks blanks) (hposition : t.position = position + byteSize blanks)
      (hc : isBlank c = false) (htext : t.text.toList = c :: withoutBlanks written)
      (h : Written (position + byteSize (blanks ++ c :: written)) tokens rest) :
      Written position (t :: tokens) (blanks ++ c :: written ++ rest)

theorem Written.blanks_append (h : Written (position + byteSize blanks) tokens source)
    (hblanks : Blanks blanks) : Written position tokens (blanks ++ source) := by
  cases h with
  | nil hmore => exact .nil (List.forall_mem_append.2 ⟨hblanks, hmore⟩)
  | @cons _ t tokens more written rest c hmore hposition hc htext h =>
      have hfirst : Blanks (blanks ++ more) := List.forall_mem_append.2 ⟨hblanks, hmore⟩
      have hassoc : blanks ++ (more ++ c :: written ++ rest) =
          blanks ++ more ++ c :: written ++ rest := by
        simp
      rw [hassoc]
      refine .cons hfirst (by rw [hposition, byteSize_append, Nat.add_assoc]) hc htext ?_
      rwa [List.append_assoc, byteSize_append, ← Nat.add_assoc]

theorem Written.append (h : Written position tokens source)
    (hmore : Written (position + byteSize source) more chars) :
    Written position (tokens ++ more) (source ++ chars) := by
  induction h with
  | nil hblanks => exact hmore.blanks_append hblanks
  | @cons position t tokens blanks written rest c hblanks hposition hc htext _ ih =>
      rw [List.append_assoc, List.cons_append]
      refine .cons hblanks hposition hc htext (ih ?_)
      rwa [Nat.add_assoc, ← byteSize_append]

/-- One more token, written behind the others. -/
theorem Written.concat (h : Written position tokens source)
    (hposition : t.position = position + byteSize source) (hc : isBlank c = false)
    (htext : t.text.toList = c :: withoutBlanks behind) :
    Written position (tokens ++ [t]) (source ++ c :: behind) := by
  have hlast : Written (position + byteSize source) [t] ([] ++ c :: behind ++ []) :=
    .cons (by simp [Blanks]) (by simpa [byteSize] using hposition) hc htext
      (.nil (by simp [Blanks]))
  have happend := h.append hlast
  rwa [List.nil_append, List.append_nil] at happend

/-- Characters without blanks that are one token behind the others. -/
theorem Written.concat_classify (h : Written 0 tokens source) (hne : chars ≠ [])
    (hchars : ∀ c ∈ chars, isBlank c = false) :
    Written 0 (tokens ++ [classify chars (byteSize source)]) (source ++ chars) := by
  obtain ⟨c, rest, rfl⟩ := List.exists_cons_of_ne_nil hne
  obtain ⟨hc, hrest⟩ := List.forall_mem_cons.1 hchars
  refine h.concat (by simp [classify]) hc ?_
  rw [toList_text_classify, withoutBlanks_of_no_blank hrest]

theorem Written.append_blanks (h : Written position tokens source) (hblanks : Blanks blanks) :
    Written position tokens (source ++ blanks) := by
  simpa using h.append (.nil hblanks)

/-- The tokens of a draft are written where they are placed. -/
theorem Placed.written (h : Placed b draft source) (hlaid : Laid b' draft) :
    Written 0 (gapless draft) source := by
  induction h generalizing b' with
  | start hblanks => exact .nil hblanks
  | gap hblanks _ ih =>
      obtain ⟨_, htail⟩ := hlaid.tail
      rw [gapless_gap]
      exact (ih htail).append_blanks hblanks
  | @symbol _ draft source blanks c hc hblanks _ ih =>
      obtain ⟨_, htail⟩ := hlaid.tail
      have hone : ∀ d ∈ [c], isBlank d = false := by simpa using (isSymbol_spec hc).1
      have hwritten := (ih htail).concat_classify (List.cons_ne_nil c []) hone
      have hassoc : source ++ c :: blanks = source ++ [c] ++ blanks := by simp
      rw [gapless_cons, hassoc]
      exact hwritten.append_blanks hblanks
  | @run _ draft source text hplain _ ih =>
      obtain ⟨_, htail⟩ := hlaid.tail
      have hne := hlaid.text_ne_nil
      rw [toList_text_classify] at hne
      rw [gapless_cons]
      exact (ih htail).concat_classify hne fun c hc => (hplain c hc).1
  | @fused _ draft source numeral written hspread _ ih =>
      obtain ⟨_, htail⟩ := hlaid.tail
      rw [gapless_cons]
      cases hspread with
      | @intro mantissa blanks digits letter sign hmantissa hletter hsign hblanks hdigits =>
          obtain ⟨c, rest, rfl⟩ := List.exists_cons_of_ne_nil hmantissa.ne_nil
          obtain ⟨hc, hrest⟩ := List.forall_mem_cons.1 hmantissa.plain
          have hletter' : isBlank letter = false := by rcases hletter with rfl | rfl <;> rfl
          have hsign' : isBlank sign = false := by rcases hsign with rfl | rfl <;> rfl
          have hbehind : withoutBlanks (rest ++ letter :: sign :: (blanks ++ digits)) =
              rest ++ letter :: sign :: digits := by
            rw [withoutBlanks_append, withoutBlanks_of_no_blank fun d hd => (hrest d hd).1,
              withoutBlanks_cons hletter', withoutBlanks_cons hsign', withoutBlanks_append,
              withoutBlanks_of_blanks hblanks, List.nil_append,
              withoutBlanks_of_no_blank fun d hd => (isPlain_of_isDigit (hdigits d hd)).1]
          refine (ih htail).concat (by simp [classify]) hc.1 ?_
          exact (toList_text_classify _ _).trans (congrArg (c :: ·) hbehind).symm

/-- Tokens stay where they are written when their minus signs are settled. -/
theorem Settles.written (h : Settles free tokens out) (hwritten : Written position tokens source) :
    Written position out source := by
  induction h generalizing position source with
  | nil => exact hwritten
  | keep _ _ _ ih =>
      cases hwritten with
      | cons hblanks hposition hc htext h => exact .cons hblanks hposition hc htext (ih h)
  | negate _ _ ih =>
      cases hwritten with
      | cons hblanks hposition hc htext h => exact .cons hblanks hposition hc htext (ih h)
  | @fold signPosition u rest out hu _ ih =>
      cases hwritten with
      | @cons _ _ _ blanks behind _ c hblanks hposition hc htext h =>
          cases h with
          | @cons _ _ _ between digits rest d hbetween _ hd hdigits h =>
              obtain ⟨rfl, hbehind⟩ : '-' = c ∧ [] = withoutBlanks behind := by simpa using htext
              have hassoc : blanks ++ '-' :: behind ++ (between ++ d :: digits ++ rest) =
                  blanks ++ '-' :: (behind ++ between ++ d :: digits) ++ rest := by
                simp
              rw [hassoc]
              refine .cons hblanks hposition hc ?_ (ih ?_)
              · rw [withMinus, toList_text_classify, hdigits, withoutBlanks_append,
                  withoutBlanks_append, ← hbehind, withoutBlanks_of_blanks hbetween,
                  withoutBlanks_cons hd]
                rfl
              · rw [Nat.add_assoc, ← byteSize_append] at h
                simpa using h

/-- The tokens of a text are written in it. -/
theorem written_scan (text : String) : Written 0 (scan text) text.toList := by
  obtain ⟨b, hplaced⟩ := exists_placed text
  obtain ⟨b', hlaid⟩ := exists_laid text
  have hdrafted : Written 0 (drafted text) text.toList := hplaced.written hlaid
  rw [scan_eq, settleTokens]
  split
  · exact hdrafted
  · exact (settles_settle true (drafted text) fun t ht => drafted_of_mem ht).written hdrafted

/-! ## What is written -/

theorem Written.withoutBlanks_eq (h : Written position tokens source) :
    withoutBlanks source = tokens.flatMap fun t => t.text.toList := by
  induction h with
  | nil hblanks => exact withoutBlanks_of_blanks hblanks
  | cons hblanks _ hc htext _ ih =>
      rw [withoutBlanks_append, withoutBlanks_append, withoutBlanks_of_blanks hblanks,
        withoutBlanks_cons hc, ih, List.flatMap_cons, htext]
      rfl

theorem Written.le_position (h : Written position tokens source) :
    ∀ t ∈ tokens, position ≤ t.position := by
  induction h with
  | nil => simp
  | cons _ hposition _ _ _ ih =>
      intro t ht
      rcases List.mem_cons.1 ht with rfl | ht
      · omega
      · exact Nat.le_trans (Nat.le_add_right _ _) (ih t ht)

theorem Written.pairwise_position (h : Written position tokens source) :
    tokens.Pairwise fun t u => t.position < u.position := by
  induction h with
  | nil => exact .nil
  | @cons position t tokens blanks written rest c _ hposition _ _ h ih =>
      refine .cons (fun u hu => ?_) ih
      have hsize : byteSize (c :: written) = c.utf8Size + byteSize written := by
        rw [← List.singleton_append, byteSize_append, byteSize_singleton]
      have hle := h.le_position u hu
      have hpos := c.utf8Size_pos
      rw [byteSize_append, hsize] at hle
      omega

/-- Where a token begins: behind all that the tokens before it write. -/
theorem Written.exists_head (h : Written position (before ++ t :: after) source) :
    ∃ head c tail, source = head ++ c :: tail ∧ t.position = position + byteSize head ∧
      isBlank c = false ∧ t.text.toList.head? = some c ∧
      withoutBlanks head = before.flatMap fun t => t.text.toList := by
  induction before generalizing position source with
  | nil =>
      cases h with
      | @cons _ _ _ blanks written rest c hblanks hposition hc htext _ =>
          exact ⟨blanks, c, written ++ rest, by simp, hposition, hc, by rw [htext]; rfl,
            withoutBlanks_of_blanks hblanks⟩
  | cons u before ih =>
      cases h with
      | @cons _ _ _ blanks written rest c hblanks _ hc htext h =>
          obtain ⟨head, d, tail, rfl, hposition, hd, hhead, hbefore⟩ := ih h
          refine ⟨blanks ++ c :: written ++ head, d, tail, by simp, ?_, hd, hhead, ?_⟩
          · rw [hposition, byteSize_append (blanks ++ c :: written), Nat.add_assoc]
          · rw [withoutBlanks_append, withoutBlanks_append, withoutBlanks_of_blanks hblanks,
              withoutBlanks_cons hc, hbefore, List.flatMap_cons, htext]
            rfl

/-- The tokens of a text write it without its blanks, one behind the other. They stand at increasing
positions, each at the byte offset of the character that is the first of its text: before that
character stands just what the earlier tokens write. -/
theorem writes_scan (text : String) :
    ((scan text).flatMap fun t => t.text.toList) = withoutBlanks text.toList ∧
      ((scan text).Pairwise fun t u => t.position < u.position) ∧
      ∀ before t after, scan text = before ++ t :: after →
        ∃ head c tail, text.toList = head ++ c :: tail ∧ t.position = byteSize head ∧
          isBlank c = false ∧ t.text.toList.head? = some c ∧
          withoutBlanks head = before.flatMap fun t => t.text.toList := by
  have hwritten := written_scan text
  refine ⟨hwritten.withoutBlanks_eq.symm, hwritten.pairwise_position,
    fun before t after hscan => ?_⟩
  rw [hscan] at hwritten
  simpa using hwritten.exists_head

/-- A numeral put together over a sign, and behind a name of two bytes. -/
theorem writes_scan_pi :
    scan "π- 2e+ 4" = [classify "π".toList 0, classify "-".toList 2] ++
        classify "2e+4".toList 4 :: [] ∧
      ∃ head c tail, "π- 2e+ 4".toList = head ++ c :: tail ∧
        (classify "2e+4".toList 4).position = byteSize head ∧ isBlank c = false ∧
        (classify "2e+4".toList 4).text.toList.head? = some c ∧
        withoutBlanks head = [classify "π".toList 0, classify "-".toList 2].flatMap fun t =>
          t.text.toList := by
  have hscan : scan "π- 2e+ 4" = [classify "π".toList 0, classify "-".toList 2] ++
      classify "2e+4".toList 4 :: [] := rfl
  exact ⟨hscan, (writes_scan "π- 2e+ 4").2.2 _ _ _ hscan⟩

end Token

end Reckoner
