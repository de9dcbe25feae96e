import Mathlib.Data.List.Infix
import Reckoner.Proofs.Token.Gaps
import Reckoner.Proofs.Token.Places

/-!
Blanks around symbols.

A text is made of words: symbols, and runs of other characters. Unless a sign stands directly behind
an `e`, the tokens of a text depend on its words only, and blanks at the ends of a text or next to a
symbol change no word. With a sign behind an `e` it does matter whether there are blanks, since they
keep a numeral with an exponent from being put together.
-/
namespace Reckoner

namespace Token

variable {free : Bool} {before run source text : List Char} {tokens out : List Token}
  {draft : Draft} {k : Cursor} {t : Token} {c : Char}

/-! ## The common form -/

/-- The text without blanks at its ends and next to symbols, and with one space for every other run
of blanks. The flag tells whether the last character before it that is no blank belongs to a run. -/
def tidy (afterRun : Bool) : List Char → List Char
  | [] => []
  | c :: rest =>
    if isBlank c then
      if afterRun && rest.head?.any fun d => decide (IsPlain d) then
        ' ' :: tidy afterRun rest
      else
        tidy afterRun rest
    else
      c :: tidy (!isSymbol c) rest

example : tidy false " 2\t (x \n 3 ) -y  ".toList = "2(x 3)-y".toList := by decide

/-- A sign stands directly behind an `e`. -/
def SignedExponent (source : List Char) : Prop :=
  ∃ letter ∈ ['e', 'E'], ∃ sign ∈ ['+', '-'], [letter, sign] <:+: source

instance (source : List Char) : Decidable (SignedExponent source) :=
  @List.decidableBEx Char (fun letter => ∃ sign ∈ ['+', '-'], [letter, sign] <:+: source)
    (fun letter => List.decidableBEx (fun sign => [letter, sign] <:+: source) ['+', '-']) ['e', 'E']

theorem SignedExponent.mono (h : SignedExponent source) (hsource : source <:+: text) :
    SignedExponent text := by
  obtain ⟨letter, hletter, sign, hsign, hwithin⟩ := h
  exact ⟨letter, hletter, sign, hsign, hwithin.trans hsource⟩

theorem tidy_of_not_blank (h : isBlank c = false) (afterRun : Bool) (rest : List Char) :
    tidy afterRun (c :: rest) = c :: tidy (!isSymbol c) rest := by
  simp [tidy, h]

/-- A run of blanks becomes one space if it stands between two runs of other characters. -/
theorem tidy_blank_of_plain (hc : isBlank c = true) {d : Char} (hd : IsPlain d)
    (after : List Char) : tidy true (c :: d :: after) = ' ' :: tidy true (d :: after) := by
  simp [tidy, hc, hd]

theorem tidy_blank_of_not_plain (hc : isBlank c = true) {rest : List Char}
    (hrest : ∀ d ∈ rest.head?, ¬ IsPlain d) (afterRun : Bool) :
    tidy afterRun (c :: rest) = tidy afterRun rest := by
  cases rest with
  | nil => simp [tidy, hc]
  | cons d after => simp [tidy, hc, hrest d rfl]

theorem tidy_blank_false (hc : isBlank c = true) (rest : List Char) :
    tidy false (c :: rest) = tidy false rest := by
  simp [tidy, hc]

/-- A character that is no blank stays, and what comes behind it is tidied by itself. -/
theorem exists_tidy_append (afterRun : Bool) (before : List Char) (hc : isBlank c = false)
    (rest : List Char) :
    ∃ head, tidy afterRun (before ++ c :: rest) = head ++ c :: tidy (!isSymbol c) rest := by
  induction before generalizing afterRun with
  | nil => exact ⟨[], tidy_of_not_blank hc afterRun rest⟩
  | cons d before ih =>
      rw [List.cons_append, tidy]
      obtain ⟨head, hhead⟩ := ih afterRun
      obtain ⟨head', hhead'⟩ := ih (!isSymbol d)
      split
      · split
        · exact ⟨' ' :: head, by rw [hhead, List.cons_append]⟩
        · exact ⟨head, hhead⟩
      · exact ⟨d :: head', by rw [hhead', List.cons_append]⟩

theorem SignedExponent.tidy (h : SignedExponent source) (afterRun : Bool) :
    SignedExponent (tidy afterRun source) := by
  obtain ⟨letter, hletter, sign, hsign, before, after, rfl⟩ := h
  have hblank : isBlank letter = false ∧ isBlank sign = false := by
    simp only [List.mem_cons, List.not_mem_nil, or_false] at hletter hsign
    constructor
    · rcases hletter with rfl | rfl <;> rfl
    · rcases hsign with rfl | rfl <;> rfl
  obtain ⟨head, hhead⟩ := exists_tidy_append afterRun before hblank.1 (sign :: after)
  refine ⟨letter, hletter, sign, hsign, head, Token.tidy (!isSymbol sign) after, ?_⟩
  rw [tidy_of_not_blank hblank.2] at hhead
  simpa using hhead.symm

/-! ## Words -/

/-- A run that has been begun is a word if there is anything in it. -/
def wordOf (run : List Char) : List (List Char) :=
  if run = [] then [] else [run]

/-- The symbols and runs of a text in their order, behind a run that has been begun. -/
def words (run : List Char) : List Char → List (List Char)
  | [] => wordOf run
  | c :: rest =>
    if isBlank c then
      wordOf run ++ words [] rest
    else if isSymbol c then
      wordOf run ++ [c] :: words [] rest
    else
      words (run ++ [c]) rest

theorem words_blank (h : isBlank c = true) (run rest : List Char) :
    words run (c :: rest) = wordOf run ++ words [] rest := by
  simp [words, h]

theorem words_symbol (h : isSymbol c = true) (run rest : List Char) :
    words run (c :: rest) = wordOf run ++ [c] :: words [] rest := by
  simp [words, h, (isSymbol_spec h).1]

theorem words_plain (h : IsPlain c) (run rest : List Char) :
    words run (c :: rest) = words (run ++ [c]) rest := by
  simp [words, h.1, h.2]

/-- A character is a blank, a symbol, or part of a run. -/
theorem char_cases (c : Char) : isBlank c = true ∨ isSymbol c = true ∨ IsPlain c := by
  unfold IsPlain
  cases isBlank c <;> cases isSymbol c <;> simp

/-- A run ends where a text does not go on with it. -/
theorem words_of_not_plain (h : ∀ c ∈ source.head?, ¬ IsPlain c) (run : List Char) :
    words run source = wordOf run ++ words [] source := by
  cases source with
  | nil => simp [words, wordOf]
  | cons c rest =>
      rcases char_cases c with hc | hc | hc
      · simp [words_blank hc, wordOf]
      · simp [words_symbol hc, wordOf]
      · exact absurd hc (h c rfl)

/-- The words stay when a text is tidied. -/
theorem words_tidy (run source : List Char) :
    words run (tidy (run ≠ []) source) = words run source := by
  induction source generalizing run with
  | nil => rfl
  | cons c rest ih =>
      have hrest : words [] (tidy false rest) = words [] rest := by simpa using ih []
      rcases char_cases c with hc | hc | hc
      · rw [words_blank hc]
        by_cases hrun : run = []
        · rw [hrun, decide_eq_false (by simp), tidy_blank_false hc, hrest]
          rfl
        · have hih := ih run
          rw [decide_eq_true hrun] at hih ⊢
          by_cases hhead : ∃ d ∈ rest.head?, IsPlain d
          · obtain ⟨d, hd, hplain⟩ := hhead
            obtain ⟨after, rfl⟩ := List.head?_eq_some_iff.1 hd
            rw [tidy_blank_of_plain hc hplain, words_blank rfl, ← hrest,
              tidy_of_not_blank hplain.1, tidy_of_not_blank hplain.1]
          · have hnot : ∀ d ∈ rest.head?, ¬ IsPlain d := fun d hd hplain => hhead ⟨d, hd, hplain⟩
            rw [tidy_blank_of_not_plain hc hnot, hih, words_of_not_plain hnot]
      · rw [tidy_of_not_blank (isSymbol_spec hc).1, hc, words_symbol hc, words_symbol hc]
        exact congrArg (wordOf run ++ [c] :: ·) hrest
      · rw [tidy_of_not_blank hc.1, hc.2, words_plain hc, words_plain hc, ← ih (run ++ [c])]
        simp

/-! ## Tokens without their positions -/

/-- The token in the beginning of the source. -/
def moved (t : Token) : Token :=
  { t with position := 0 }

theorem map_moved_eq_iff {tokens more : List Token} :
    tokens.map moved = more.map moved ↔ tokens.map content = more.map content := by
  have hcontent : content ∘ moved = content := rfl
  have hmoved : (fun p : TokenKind × String => (⟨p.1, p.2, 0⟩ : Token)) ∘ content = moved := rfl
  constructor
  · intro h
    simpa only [List.map_map, hcontent] using congrArg (List.map content) h
  · intro h
    rw [← hmoved, ← List.map_map, ← List.map_map, h]

/-- How minus signs are settled does not depend on positions. -/
theorem Settles.map_moved (h : Settles free tokens out) :
    Settles free (tokens.map moved) (out.map moved) := by
  induction h with
  | nil => exact .nil
  | keep hminus hnegate _ ih => exact .keep hminus hnegate ih
  | @fold position u rest out hu _ ih => exact .fold hu ih
  | @negate position rest out hrest _ ih =>
      refine .negate (fun u hu => ?_) ih
      cases rest with
      | nil => cases hu
      | cons v rest =>
          obtain rfl := Option.some.inj hu
          exact hrest v rfl

/-- Tokens that agree but for their positions still do when their minus signs are settled. -/
theorem content_settleTokens {tokens more : List Token} (h : ∀ t ∈ tokens, Drafted t)
    (hmore : ∀ t ∈ more, Drafted t) (heq : tokens.map content = more.map content) :
    (settleTokens tokens).map content = (settleTokens more).map content := by
  have hlength : tokens.length = more.length := by simpa using congrArg List.length heq
  unfold settleTokens
  rw [hlength]
  split
  · exact heq
  · rw [← map_moved_eq_iff] at heq ⊢
    rw [(settles_settle true tokens h).map_moved.eq_settle, heq,
      ← (settles_settle true more hmore).map_moved.eq_settle]

/-! ## From words to tokens -/

theorem content_ofRun (run : List Char) (position : Nat) :
    (ofRun run position).map content = (ofRun run 0).map content := by
  unfold ofRun
  split
  · split <;> rfl
  · rfl

/-- What the words stand for. -/
def contents (words : List (List Char)) : List (TokenKind × String) :=
  words.flatMap fun word => (ofRun word 0).map content

theorem signedExponent_append {letter sign : Char} (hletter : letter = 'e' ∨ letter = 'E')
    (hsign : sign = '+' ∨ sign = '-') (before after : List Char) :
    SignedExponent (before ++ letter :: sign :: after) :=
  ⟨letter, by simpa using hletter, sign, by simpa using hsign, before, after, by simp⟩

theorem Spread.signedExponent {numeral written : List Char} (h : Spread numeral written) :
    SignedExponent written := by
  cases h with
  | intro _ hletter hsign _ _ => exact signedExponent_append hletter hsign _ _

/-- Where a numeral is put together, a sign stands behind an `e`. -/
theorem Placed.signedExponent (h : Placed true draft source) (hlaid : Laid true draft) {n : Nat}
    (hn : n = 2 ∨ n = 3) (hdigits : ∀ c ∈ text, c.isDigit = true)
    (hfuse : fuse? draft n text = some t) : SignedExponent (source ++ text) := by
  have hplaced := h.fuse hlaid hn hdigits hfuse
  obtain ⟨-, -, -, -, -, hdouble⟩ := fuse?_eq_some hfuse
  obtain ⟨first, _, _, mantissa, letter, sign, -, -, -, -, hletter, hsign, rfl⟩ :=
    hlaid.exists_mantissa_of_fuse hn hfuse
  obtain ⟨_, before, written, -, hsource, -, hwritten⟩ :=
    hplaced.number (isNumber_of_isDouble hdouble)
  rw [toList_text_classify] at hwritten
  have hsigned : SignedExponent written := by
    rcases hwritten with rfl | hspread
    · exact signedExponent_append hletter hsign mantissa text
    · exact hspread.signedExponent
  exact hsigned.mono (hsource ▸ List.suffix_append before written).isInfix

/-- Unless a sign stands behind an `e`, the run of a cursor stands by itself. -/
theorem Behind.content_closed (h : Behind before k) (hsigned : ¬ SignedExponent before) :
    (gapless k.closed).map content = (gapless k.draft).map content ++ contents (wordOf k.run) := by
  obtain ⟨source, rfl, hplaced, -⟩ := h.draft
  by_cases hrun : k.run = []
  · simp [Cursor.closed, Piece.ofRun, hrun, wordOf, contents]
  · rw [k.closed_of_ne_nil hrun]
    rcases enter_cases k.draft k.run k.start with ⟨n, t, hn, hint, hfuse, -⟩ | henter
    · have hdigits := isDigit_of_isInt hint h.plain
      exact absurd (hplaced.signedExponent h.laid hn hdigits hfuse) hsigned
    · rw [henter, gapless_append, List.map_append, content_ofRun]
      simp [wordOf, hrun, contents]

/-- Unless a sign stands behind an `e`, the tokens of a draft are those of its words. -/
theorem Behind.content_finish (h : Behind before k) (hsigned : ¬ SignedExponent (before ++ text)) :
    (gapless (k.finish text)).map content =
      (gapless k.draft).map content ++ contents (words k.run text) := by
  induction text generalizing before k with
  | nil =>
      rw [List.append_nil] at hsigned
      exact h.content_closed hsigned
  | cons c rest ih =>
      have hclosed := h.content_closed fun hbefore =>
        hsigned (hbefore.mono (List.infix_append' [] before (c :: rest)))
      rw [← List.singleton_append, ← List.append_assoc] at hsigned
      rcases char_cases c with hc | hc | hc
      · have hparted : gapless k.parted = gapless k.closed := by
          rcases k.parted_eq with hparted | hparted <;> simp [hparted]
        have hfinish : k.finish (c :: rest) = _ := moves_blank hc k rest
        rw [hfinish, ih (h.blank hc) hsigned, words_blank hc]
        change (gapless k.parted).map content ++ contents (words [] rest) = _
        rw [hparted, hclosed, contents, contents, contents, List.flatMap_append, List.append_assoc]
      · have hfinish : k.finish (c :: rest) = _ := moves_symbol hc k rest
        rw [hfinish, ih (h.symbol hc) hsigned, words_symbol hc]
        change (gapless (some _ :: k.closed)).map content ++ contents (words [] rest) = _
        rw [gapless_cons, List.map_append, hclosed, contents, contents, contents,
          List.flatMap_append, List.flatMap_cons, ofRun_symbol hc]
        simp [content, classify]
      · have hfinish : k.finish (c :: rest) = _ := moves_char hc k rest
        rw [hfinish, ih (h.char hc) hsigned, words_plain hc]

theorem content_drafted {text : String} (hsigned : ¬ SignedExponent text.toList) :
    (drafted text).map content = contents (words [] text.toList) := by
  exact Behind.start.content_finish hsigned

/-- Blanks around symbols make no difference. Two texts with the same common form have the same
tokens but for their positions, if no sign stands directly behind an `e` in that form. -/
theorem content_scan_of_tidy {first second : String}
    (htidy : tidy false first.toList = tidy false second.toList)
    (hsigned : ¬ SignedExponent (tidy false first.toList)) :
    (scan first).map content = (scan second).map content := by
  have hwords : words [] first.toList = words [] second.toList := by
    rw [← words_tidy, ← words_tidy [] second.toList]
    exact congrArg (words []) htidy
  have hfirst := content_drafted fun h => hsigned (h.tidy false)
  have hsecond := content_drafted fun h => hsigned (htidy ▸ h.tidy false)
  rw [scan_eq, scan_eq]
  refine content_settleTokens (fun t => drafted_of_mem) (fun t => drafted_of_mem) ?_
  rw [hfirst, hsecond, hwords]

/-- Blanks before and behind minus signs. -/
theorem content_scan_of_difference :
    tidy false "( - 2)\t* sin  x -2 ".toList = tidy false "(-2)*sin x- 2".toList ∧
      ¬ SignedExponent (tidy false "( - 2)\t* sin  x -2 ".toList) ∧
      (scan "( - 2)\t* sin  x -2 ").map content = (scan "(-2)*sin x- 2").map content := by
  have htidy : tidy false "( - 2)\t* sin  x -2 ".toList = tidy false "(-2)*sin x- 2".toList := by
    decide
  have hsigned : ¬ SignedExponent (tidy false "( - 2)\t* sin  x -2 ".toList) := by
    decide +kernel
  exact ⟨htidy, hsigned, content_scan_of_tidy htidy hsigned⟩

/-- Blanks do matter before a sign behind an `e`. -/
example : tidy false "2e -3".toList = tidy false "2e-3".toList ∧
    (scan "2e -3").map Token.text ≠ (scan "2e-3").map Token.text := by
  decide +kernel

end Token

end Reckoner
