import Mathlib.Data.List.Induction
import Reckoner.Proofs.Token.Draft

/-!
Where tokens stand in the text.

A draft is placed in what has been read: its tokens, from the first to the latest, are written there
one after the other. Blanks stand only in gaps and behind symbols, and the sign of an exponent is a
symbol like any other. So a numeral that is put together over a sign may have blanks behind that
sign, and nowhere else; and a minus sign that becomes part of a numeral may have blanks behind it.
-/
namespace Reckoner

namespace Token

variable {b : Bool} {draft : Draft} {source text numeral written : List Char} {t u : Token}

/-- How many bytes the characters take. -/
def byteSize (chars : List Char) : Nat :=
  (String.ofList chars).utf8ByteSize

@[simp] theorem byteSize_append (first second : List Char) :
    byteSize (first ++ second) = byteSize first + byteSize second := by
  simp [byteSize, String.ofList_append]

@[simp] theorem byteSize_singleton (c : Char) : byteSize [c] = c.utf8Size := by
  simp [byteSize]

/-- All of the characters are blanks. -/
def Blanks (chars : List Char) : Prop :=
  ∀ c ∈ chars, isBlank c = true

/-- The characters stand in the source from the byte `position` on. -/
def StandsAt (source : List Char) (position : Nat) (chars : List Char) : Prop :=
  ∃ before after, source = before ++ chars ++ after ∧ byteSize before = position

/-- A numeral with a signed exponent, and how it may be written: with blanks behind the sign. -/
inductive Spread : List Char → List Char → Prop
  | intro {mantissa blanks digits : List Char} {letter sign : Char}
      (hmantissa : IsMantissa mantissa) (hletter : letter = 'e' ∨ letter = 'E')
      (hsign : sign = '+' ∨ sign = '-') (hblanks : Blanks blanks)
      (hdigits : ∀ c ∈ digits, c.isDigit = true) :
      Spread (mantissa ++ letter :: sign :: digits)
        (mantissa ++ letter :: sign :: (blanks ++ digits))

/-- A draft by where its tokens stand in the source, the latest last; the flag says whether a blank
that comes next leaves no gap. -/
inductive Placed : Bool → Draft → List Char → Prop
  | start {blanks : List Char} (hblanks : Blanks blanks) : Placed true [] blanks
  | gap {b : Bool} {draft : Draft} {source blanks : List Char} (hblanks : Blanks blanks)
      (h : Placed b draft source) : Placed true (none :: draft) (source ++ blanks)
  | symbol {b : Bool} {draft : Draft} {source blanks : List Char} {c : Char}
      (hc : isSymbol c = true) (hblanks : Blanks blanks) (h : Placed b draft source) :
      Placed true (some (classify [c] (byteSize source)) :: draft) (source ++ c :: blanks)
  | run {b : Bool} {draft : Draft} {source text : List Char} (hplain : ∀ c ∈ text, IsPlain c)
      (h : Placed b draft source) :
      Placed false (some (classify text (byteSize source)) :: draft) (source ++ text)
  | fused {b : Bool} {draft : Draft} {source numeral written : List Char}
      (hspread : Spread numeral written) (h : Placed b draft source) :
      Placed false (some (classify numeral (byteSize source)) :: draft) (source ++ written)

theorem Blanks.append_singleton {blanks : List Char} (h : Blanks blanks) {c : Char}
    (hc : isBlank c = true) : Blanks (blanks ++ [c]) :=
  List.forall_mem_append.2 ⟨h, by simpa using hc⟩

theorem Placed.blank (h : Placed true draft source) {c : Char} (hc : isBlank c = true) :
    Placed true draft (source ++ [c]) := by
  cases h with
  | start hblanks => exact .start (hblanks.append_singleton hc)
  | gap hblanks h =>
      rw [List.append_assoc]
      exact .gap (hblanks.append_singleton hc) h
  | symbol hsymbol hblanks h =>
      rw [List.append_assoc]
      exact .symbol hsymbol (hblanks.append_singleton hc) h

theorem Placed.tail {x : Option Token} (h : Placed b (x :: draft) source) :
    ∃ b' source', Placed b' draft source' ∧ source' <+: source := by
  cases h with
  | gap _ h => exact ⟨_, _, h, List.prefix_append _ _⟩
  | symbol _ _ h => exact ⟨_, _, h, List.prefix_append _ _⟩
  | run _ h => exact ⟨_, _, h, List.prefix_append _ _⟩
  | fused _ h => exact ⟨_, _, h, List.prefix_append _ _⟩

/-- The tokens before a place stand in the source before it. -/
theorem Placed.suffix (h : Placed b draft source) {rest : Draft} (hrest : rest <:+ draft) :
    ∃ b' source', Placed b' rest source' ∧ source' <+: source := by
  induction draft generalizing b source with
  | nil =>
      obtain rfl := List.suffix_nil.1 hrest
      exact ⟨b, source, h, List.prefix_rfl⟩
  | cons x draft ih =>
      rcases List.suffix_cons_iff.1 hrest with rfl | hrest
      · exact ⟨b, source, h, List.prefix_rfl⟩
      · obtain ⟨b', source', htail, hinitial⟩ := h.tail
        obtain ⟨b'', source'', hplaced, hinitial'⟩ := ih htail hrest
        exact ⟨b'', source'', hplaced, hinitial'.trans hinitial⟩

/-! ## Entering pieces -/

theorem isSymbol_of_sign {c : Char} (h : c = '+' ∨ c = '-') : isSymbol c = true := by
  rcases h with rfl | rfl <;> rfl

/-- Tokens without symbols in them stand next to each other. -/
theorem Placed.neighbours {tokens : List Token}
    (h : Placed b ((tokens.map some).reverse ++ draft) source)
    (hplain : ∀ t ∈ tokens, ∀ c ∈ t.text.toList, isSymbol c = false) :
    ∃ b' source', Placed b' draft source' ∧
      source = source' ++ tokens.flatMap (fun t => t.text.toList) ∧
      ∀ first ∈ tokens.head?, first.position = byteSize source' := by
  induction tokens using List.reverseRecOn generalizing b source with
  | nil => exact ⟨b, source, h, by simp, by simp⟩
  | append_singleton init last ih =>
      have hinit : ∀ t ∈ init, ∀ c ∈ t.text.toList, isSymbol c = false :=
        fun t ht => hplain t (List.mem_append_left _ ht)
      have hlast := hplain last (by simp)
      rw [List.map_append, List.reverse_append, List.append_assoc] at h
      cases h with
      | @symbol _ _ _ _ c hc _ _ =>
          have hnot := hlast c (by simp)
          rw [hc] at hnot
          cases hnot
      | run _ h =>
          obtain ⟨b', source', hplaced, rfl, hfirst⟩ := ih h hinit
          refine ⟨b', source', hplaced, by simp, ?_⟩
          cases init with
          | nil => simp [classify]
          | cons first init => simpa using hfirst
      | fused hspread _ =>
          cases hspread with
          | @intro _ _ _ _ sign _ _ hsign _ _ =>
              have hnot := hlast sign (by simp)
              rw [isSymbol_of_sign hsign] at hnot
              cases hnot

/-- A run that is a whole number has digits only. -/
theorem isDigit_of_isInt (hint : (kindOf text).isInt = true) (hplain : ∀ c ∈ text, IsPlain c) :
    ∀ c ∈ text, c.isDigit = true := by
  obtain ⟨n, hn⟩ := readInt?_of_isInt hint
  refine (isDigit_of_readInt?_unsigned (fun c hc => ?_) hn).2
  have hsymbol := (hplain c (List.mem_of_mem_head? hc)).2
  constructor <;> rintro rfl <;> cases hsymbol

/-- A numeral that is put together is a mantissa, a letter, a sign, and what has been entered. -/
theorem Laid.exists_mantissa_of_fuse (hlaid : Laid true draft) {n : Nat} (hn : n = 2 ∨ n = 3)
    (hfuse : fuse? draft n text = some t) :
    ∃ (first : Token) (middle : List Token) (last : Token) (mantissa : List Char)
      (letter sign : Char),
      draft = some last :: (((first :: middle).map some).reverse ++ draft.drop n) ∧
      (first :: middle).flatMap (fun t => t.text.toList) = mantissa ++ [letter] ∧
      last.text.toList = [sign] ∧ IsMantissa mantissa ∧ (letter = 'e' ∨ letter = 'E') ∧
      (sign = '+' ∨ sign = '-') ∧
      t = classify (mantissa ++ letter :: sign :: text) first.position := by
  have hhead := hlaid.head_of_fuse hn hfuse
  obtain ⟨first, others, hdraft, hcount, rfl, hdouble⟩ := fuse?_eq_some hfuse
  rw [toList_text_classify] at hhead
  have hnumeric := isNumeric_of_isDouble hdouble
  obtain ⟨middle, last, rfl⟩ : ∃ middle last, others = middle ++ [last] := by
    refine ⟨others.dropLast, others.getLast ?_, (List.dropLast_append_getLast _).symm⟩
    rintro rfl
    rcases hn with rfl | rfl <;> simp at hcount
  have hsplit : ((first :: (middle ++ [last])).map some).reverse =
      some last :: ((first :: middle).map some).reverse := by
    simp
  rw [hsplit, List.cons_append] at hdraft
  rw [hdraft] at hlaid
  obtain ⟨sign, hsymbol, hlast⟩ := hlaid.symbol_of_true
  have htext : (first :: (middle ++ [last])).flatMap (fun t => t.text.toList) ++ text =
      (first :: middle).flatMap (fun t => t.text.toList) ++ sign :: text := by
    simp [hlast]
  have hdouble' : (kindOf ((first :: (middle ++ [last])).flatMap (fun t => t.text.toList) ++
      text)).isDouble = true := hdouble
  rw [htext] at hhead hnumeric hdouble' ⊢
  have hsign := sign_of_isNumeric hsymbol (hnumeric sign (by simp))
  obtain ⟨x, hx⟩ := readDouble?_of_isDouble hdouble'
  have hunsigned := splitSign_unsigned fun c hc => by
    have hnot := hhead c hc
    constructor <;> rintro rfl <;> cases hnot
  have hfloat := (readDouble?_eq_some hx).1
  simp only [Decimal.readFloat?, hunsigned] at hfloat
  obtain ⟨m, hm, -⟩ := Option.map_eq_some_iff.1 hfloat
  obtain ⟨mantissa, letter, hbody, hmantissa, hletter⟩ :=
    exists_mantissa_of_sign hsign (readScaled?_of_sign hsign hm)
  refine ⟨first, middle, last, mantissa, letter, sign, hdraft, hbody, hlast, hmantissa, hletter,
    hsign, ?_⟩
  rw [hbody, List.append_assoc]
  rfl

/-- A numeral that is put together over a sign stands where its first token stood. -/
theorem Placed.fuse (h : Placed true draft source) (hlaid : Laid true draft) {n : Nat}
    (hn : n = 2 ∨ n = 3) (hdigits : ∀ c ∈ text, c.isDigit = true)
    (hfuse : fuse? draft n text = some t) :
    Placed false (some t :: draft.drop n) (source ++ text) := by
  obtain ⟨first, middle, last, mantissa, letter, sign, hdraft, hbody, hlast, hmantissa, hletter,
    hsign, rfl⟩ := hlaid.exists_mantissa_of_fuse hn hfuse
  generalize draft.drop n = rest at hdraft ⊢
  subst hdraft
  have hplain : ∀ t ∈ first :: middle, ∀ c ∈ t.text.toList, isSymbol c = false := by
    intro t ht c hc
    have hmem : c ∈ mantissa ++ [letter] := hbody ▸ List.mem_flatMap.2 ⟨t, ht, hc⟩
    rcases List.mem_append.1 hmem with hmem | hmem
    · exact (hmantissa.plain c hmem).2
    · obtain rfl := List.mem_singleton.1 hmem
      rcases hletter with rfl | rfl <;> rfl
  cases h with
  | @symbol _ _ _ blanks c _ hblanks h =>
      obtain rfl : c = sign := by simpa using hlast
      obtain ⟨b, source', hplaced, rfl, hfirst⟩ := h.neighbours hplain
      have hposition : first.position = byteSize source' := hfirst first rfl
      rw [hbody, hposition]
      have hsource : source' ++ (mantissa ++ [letter]) ++ c :: blanks ++ text =
          source' ++ (mantissa ++ letter :: c :: (blanks ++ text)) := by
        simp
      rw [hsource]
      exact .fused ⟨hmantissa, hletter, hsign, hblanks, hdigits⟩ hplaced

/-- A run is placed behind the draft, whether it stands for itself, is cut in two or ends a
numeral. -/
theorem Placed.enter_run (h : Placed true draft source) (hlaid : Laid true draft)
    (hplain : ∀ c ∈ text, IsPlain c) :
    Placed false (enter draft (.text text (byteSize source))) (source ++ text) := by
  rcases enter_cases draft text (byteSize source) with ⟨n, t, hn, hint, hfuse, henter⟩ | henter
  · rw [henter]
    exact h.fuse hlaid hn (isDigit_of_isInt hint hplain) hfuse
  · rw [henter]
    rcases ofRun_cases text (byteSize source) with ⟨numeral, name, hsplit, hrun⟩ | ⟨-, hrun⟩
    · obtain ⟨rfl, -⟩ := splitNumeral?_spec hsplit
      obtain ⟨hnumeral, hname⟩ := List.forall_mem_append.1 hplain
      have hboth : Placed false _ (source ++ numeral ++ name) := .run hname (.run hnumeral h)
      rw [byteSize_append, List.append_assoc] at hboth
      rw [hrun]
      exact hboth
    · rw [hrun]
      exact .run hplain h

/-! ## Reading a text -/

/-- The cursor stands behind the characters `before`, in which its draft is placed. -/
structure Behind (before : List Char) (k : Cursor) : Prop where
  draft : ∃ source, before = source ++ k.run ∧ Placed true k.draft source ∧
    k.start = byteSize source
  laid : Laid true k.draft
  plain : ∀ c ∈ k.run, IsPlain c
  position : k.position = byteSize before

theorem Behind.closed {before : List Char} {k : Cursor} (h : Behind before k) :
    ∃ b, Placed b k.closed before := by
  obtain ⟨source, rfl, hplaced, hstart⟩ := h.draft
  by_cases hrun : k.run = []
  · refine ⟨true, ?_⟩
    simpa [Cursor.closed, Piece.ofRun, hrun] using hplaced
  · rw [k.closed_of_ne_nil hrun, hstart]
    exact ⟨false, hplaced.enter_run h.laid h.plain⟩

theorem Behind.parted {before : List Char} {k : Cursor} (h : Behind before k) {c : Char}
    (hc : isBlank c = true) : Placed true k.parted (before ++ [c]) := by
  unfold Cursor.parted
  split
  next hrun =>
    obtain ⟨source, rfl, hplaced, -⟩ := h.draft
    rw [hrun, List.append_nil]
    exact hplaced.blank hc
  next =>
    obtain ⟨b, hplaced⟩ := h.closed
    exact .gap (by simpa [Blanks] using hc) hplaced

theorem Behind.start : Behind [] (.after [] 0) :=
  ⟨⟨[], rfl, .start (by simp [Blanks]), rfl⟩, .nil, by simp [Cursor.after], rfl⟩

theorem Behind.blank {before : List Char} {k : Cursor} (h : Behind before k) {c : Char}
    (hc : isBlank c = true) :
    Behind (before ++ [c]) (.after k.parted (k.position + c.utf8Size)) := by
  have hposition : k.position + c.utf8Size = byteSize (before ++ [c]) := by simp [h.position]
  exact ⟨⟨_, (List.append_nil _).symm, h.parted hc, hposition⟩, h.laid.parted h.plain,
    by simp [Cursor.after], hposition⟩

theorem Behind.symbol {before : List Char} {k : Cursor} (h : Behind before k) {c : Char}
    (hc : isSymbol c = true) : Behind (before ++ [c])
      (.after (some (classify [c] k.position) :: k.closed) (k.position + c.utf8Size)) := by
  obtain ⟨b, hplaced⟩ := h.closed
  obtain ⟨b', hlaid⟩ := h.laid.closed h.plain
  have hsymbol : Placed true _ (before ++ [c]) := .symbol hc (by simp [Blanks]) hplaced
  rw [← h.position] at hsymbol
  have hposition : k.position + c.utf8Size = byteSize (before ++ [c]) := by simp [h.position]
  exact ⟨⟨_, (List.append_nil _).symm, hsymbol, hposition⟩, .symbol k.position hc hlaid,
    by simp [Cursor.after], hposition⟩

theorem Behind.char {before : List Char} {k : Cursor} (h : Behind before k) {c : Char}
    (hc : IsPlain c) : Behind (before ++ [c])
      { k with run := k.run ++ [c], position := k.position + c.utf8Size } := by
  obtain ⟨source, rfl, hplaced, hstart⟩ := h.draft
  refine ⟨⟨source, by simp, hplaced, hstart⟩, h.laid,
    List.forall_mem_append.2 ⟨h.plain, by simpa using hc⟩, ?_⟩
  simp [h.position, Nat.add_assoc]

/-- The draft of a text is placed in the text. -/
theorem exists_placed (text : String) :
    ∃ b, Placed b ((pieces [] 0 0 text.toList).foldl enter []) text.toList := by
  have hfinal : ∃ l : Cursor, Behind ([] ++ text.toList) l ∧
      (Cursor.after [] 0).finish text.toList = l.closed :=
    Cursor.finish_invariant (fun hc h => h.blank hc) (fun hc h => h.symbol hc)
      (fun hc h => h.char hc) [] .start text.toList
  obtain ⟨l, hbehind, hfinish⟩ := hfinal
  obtain ⟨b, hplaced⟩ := hbehind.closed
  rw [List.nil_append, ← hfinish] at hplaced
  exact ⟨b, hplaced⟩

/-! ## Doubles -/

/-- The number `t` stands in the source as `written` for `numeral`, or behind a minus sign that has
become part of it, perhaps with blanks between the two. -/
inductive Occurs (source : List Char) (t : Token) (numeral written : List Char) : Prop
  | plain (htext : t.text.toList = numeral) (hplace : StandsAt source t.position written)
  | negative {blanks : List Char} (htext : t.text.toList = '-' :: numeral) (hblanks : Blanks blanks)
      (hplace : StandsAt source t.position ('-' :: (blanks ++ written)))

/-- A blank stands right behind a sign that stands right behind an `e`. -/
def BlankAfterSign (source : List Char) : Prop :=
  ∃ letter sign blank, [letter, sign, blank] <:+: source ∧ (letter = 'e' ∨ letter = 'E') ∧
    (sign = '+' ∨ sign = '-') ∧ isBlank blank = true

/-- How a number of a draft is written. -/
theorem Placed.number (h : Placed b (some t :: draft) source) (hnumber : t.isNumber = true) :
    ∃ b' source' written, Placed b' draft source' ∧ source = source' ++ written ∧
      t.position = byteSize source' ∧
      (written = t.text.toList ∨ Spread t.text.toList written) := by
  cases h with
  | symbol hc _ _ =>
      rw [isNumber, classify, (kindOf_symbol hc).2.1] at hnumber
      cases hnumber
  | run _ h => exact ⟨_, _, _, h, rfl, rfl, .inl (toList_text_classify _ _).symm⟩
  | fused hspread h =>
      refine ⟨_, _, _, h, rfl, rfl, .inr ?_⟩
      rwa [toList_text_classify]

theorem eq_of_isMinus (h : (kindOf text).isMinus = true ∨ (kindOf text).isNegate = true) :
    text = ['-'] := by
  have hcases := kindOf_cases text
  generalize hk : kindOf text = k at h hcases
  rcases hcases with hsymbol | hplain
  · cases hsymbol with
    | binary o =>
        cases o with
        | subtract => exact kindOf_eq_operator hk
        | _ => rcases h with h | h <;> cases h
    | _ => rcases h with h | h <;> cases h
  · cases hplain <;> rcases h with h | h <;> cases h

/-- How a minus sign of a draft is written. -/
theorem Placed.minus (h : Placed b (some t :: draft) source)
    (hminus : t.kind.isMinus = true ∨ t.kind.isNegate = true) :
    ∃ source' blanks, source = source' ++ '-' :: blanks ∧ t.position = byteSize source' ∧
      Blanks blanks := by
  cases h with
  | symbol hc hblanks h =>
      obtain rfl := List.singleton_inj.1 (eq_of_isMinus hminus)
      exact ⟨_, _, rfl, rfl, hblanks⟩
  | run hplain h =>
      obtain rfl := eq_of_isMinus hminus
      exact absurd (hplain '-' List.mem_cons_self).2 (by decide)
  | fused hspread h =>
      obtain rfl := eq_of_isMinus hminus
      generalize hminus' : ['-'] = numeral at hspread
      cases hspread
      have hlength := congrArg List.length hminus'
      simp only [List.length_append, List.length_cons, List.length_nil] at hlength
      omega

/-- Every number of a text stands in it. -/
theorem exists_occurs {text : String} (ht : t ∈ scan text) (hnumber : t.isNumber = true) :
    ∃ numeral written, Occurs text.toList t numeral written ∧
      (written = numeral ∨ Spread numeral written) := by
  obtain ⟨b, hplaced⟩ := exists_placed text
  obtain ⟨x, hx, rfl⟩ := List.mem_filterMap.1 ht
  rcases exists_infix_of_mem_settleSigns hx hnumber with hmem | ⟨n, u, hwithin, hminus, hu, rfl⟩
  · obtain ⟨later, earlier, hdraft⟩ := List.append_of_mem (List.mem_reverse.1 hmem)
    obtain ⟨b', source, hsource, after, hafter⟩ := hplaced.suffix ⟨later, hdraft.symm⟩
    obtain ⟨_, before, written, -, rfl, hposition, hwritten⟩ := hsource.number hnumber
    exact ⟨t.text.toList, written, .plain rfl ⟨before, after, hafter.symm, hposition.symm⟩,
      hwritten⟩
  · have hreverse : [some u, some n].reverse <:+: _ := hwithin
    obtain ⟨later, earlier, hdraft⟩ := List.reverse_infix.1 hreverse
    rw [List.append_assoc] at hdraft
    have hsuffix : some u :: some n :: earlier <:+ _ := ⟨later, hdraft⟩
    obtain ⟨b', source, hsource, after, hafter⟩ := hplaced.suffix hsuffix
    obtain ⟨_, source', written, hsource', rfl, -, hwritten⟩ := hsource.number hu
    obtain ⟨before, blanks, rfl, hposition, hblanks⟩ := hsource'.minus hminus
    refine ⟨u.text.toList, written,
      .negative (toList_text_classify _ _) hblanks ⟨before, after, ?_, hposition.symm⟩, hwritten⟩
    rw [← hafter]
    simp

theorem Occurs.within (h : Occurs source t numeral written) : written <:+: source := by
  cases h with
  | plain _ hplace =>
      obtain ⟨before, after, hsource, -⟩ := hplace
      exact ⟨before, after, hsource.symm⟩
  | @negative blanks _ _ hplace =>
      obtain ⟨before, after, hsource, -⟩ := hplace
      exact ⟨before ++ '-' :: blanks, after, by simp [hsource]⟩

theorem Occurs.subset (h : Occurs source t numeral written) : numeral ⊆ t.text.toList := by
  cases h with
  | plain htext _ => exact fun c hc => htext ▸ hc
  | negative htext _ _ => exact fun c hc => htext ▸ List.mem_cons_of_mem _ hc

/-- A numeral without a blank behind its sign is written as it is. -/
theorem Spread.eq (h : Spread numeral written) (hwithin : written <:+: source)
    (hsource : ¬ BlankAfterSign source) : written = numeral := by
  cases h with
  | @intro mantissa blanks digits letter sign _ hletter hsign hblanks _ =>
      cases blanks with
      | nil => rfl
      | cons blank blanks =>
          have hthree : [letter, sign, blank] <:+:
              mantissa ++ letter :: sign :: (blank :: blanks ++ digits) :=
            ⟨mantissa, blanks ++ digits, by simp⟩
          exact absurd ⟨letter, sign, blank, hthree.trans hwithin, hletter, hsign,
            hblanks blank List.mem_cons_self⟩ hsource

theorem isBlank_of_isNumeric {c : Char} (h : IsNumeric c) : isBlank c = false := by
  rcases h with h | rfl | rfl | rfl | rfl | rfl
  · exact (isPlain_of_isDigit h).1
  all_goals rfl

/-- Every double of a text stands in it as one run of characters, but for blanks behind the sign of
its exponent, and behind a minus sign that has become part of it. If no sign behind an `e` has a
blank after it, the double itself has none. -/
theorem occurs_of_mem_scan {text : String} (ht : t ∈ scan text)
    (hdouble : t.kind.isDouble = true) :
    ∃ numeral written, Occurs text.toList t numeral written ∧
      (∀ c ∈ numeral, isBlank c = false) ∧ (written = numeral ∨ Spread numeral written) ∧
      (¬ BlankAfterSign text.toList → written = numeral) := by
  obtain ⟨numeral, written, hoccurs, hwritten⟩ := exists_occurs ht (isNumber_of_isDouble hdouble)
  have hkind : t.kind = kindOf t.text.toList := by
    rcases spelled_of_mem_scan ht with hkind | ⟨hnegate, -⟩
    · exact hkind
    · rw [hnegate] at hdouble
      cases hdouble
  have hnumeric := isNumeric_of_isDouble (hkind ▸ hdouble)
  refine ⟨numeral, written, hoccurs, fun c hc => ?_, hwritten, fun hsource => ?_⟩
  · exact isBlank_of_isNumeric (hnumeric c (hoccurs.subset hc))
  · rcases hwritten with rfl | hspread
    · rfl
    · exact hspread.eq hoccurs.within hsource

/-- A negated numeral with blanks behind its two signs. -/
theorem occurs_of_minus_two :
    ∃ t ∈ scan "3*- 2e+ 4", t.kind.isDouble = true ∧
      ∃ numeral written, Occurs "3*- 2e+ 4".toList t numeral written ∧
        (∀ c ∈ numeral, isBlank c = false) ∧ (written = numeral ∨ Spread numeral written) ∧
        (¬ BlankAfterSign "3*- 2e+ 4".toList → written = numeral) := by
  have hscan : scan "3*- 2e+ 4" = [classify "3".toList 0, classify "*".toList 1,
      classify "-2e+4".toList 2] := rfl
  have hmem : classify "-2e+4".toList 2 ∈ scan "3*- 2e+ 4" := by simp [hscan]
  have hdouble : (classify "-2e+4".toList 2).kind.isDouble = true := by decide +kernel
  exact ⟨_, hmem, hdouble, occurs_of_mem_scan hmem hdouble⟩

/-- `2e+ 4` is read as one double, which does not stand in it as one run of characters. -/
theorem not_occurs_two :
    ¬ ∀ t ∈ scan "2e+ 4", t.kind.isDouble = true →
      ∃ numeral, Occurs "2e+ 4".toList t numeral numeral := by
  intro h
  have hscan : scan "2e+ 4" = [classify "2e+4".toList 0] := rfl
  have hdouble : (classify "2e+4".toList 0).kind.isDouble = true := by decide +kernel
  obtain ⟨numeral, hoccurs⟩ := h _ (by simp [hscan]) hdouble
  have hwithin := hoccurs.within
  cases hoccurs with
  | plain htext _ =>
      rw [← htext, toList_text_classify] at hwithin
      exact absurd hwithin (by decide)
  | negative htext _ _ =>
      rw [toList_text_classify] at htext
      exact absurd htext (by simp)

end Token

end Reckoner
