import CTree.Lexical.Token
import CTree.Proofs.PatternLocality

/-!
# The texts of constants and string literals

A numeral may be cut where it ends: what follows it does not make it a numeral. What
stands between quotes is found by its quotes, whatever follows the closing one. In
front of an opening quote an encoding mark may stand, which is a word by itself.
-/
namespace CTree.Lexical
open Pattern

/-- A character that is no white space. -/
def isSolid (c : Char) : Bool := !(" \t\r\n".toList.contains c)

/-- A character by which a token may go on. -/
def isJoint (c : Char) : Bool := isWordPart c || "\'\".+-<=>&|".toList.contains c

/-! ## Numerals -/

/-- A number, with a point or a power of ten or without. -/
def numeral : Pattern := .alt floatingConstant integerConstant

theorem width?_constant (s : List Char) :
    constant.width? s = (numeral.width? s).or (characterConstant.width? s) := by
  show (Pattern.alt floatingConstant (.alt integerConstant characterConstant)).width? s = _
  rw [numeral, width?_alt, width?_alt, width?_alt, Option.or_assoc]

lemma cuts_digits : Cuts digits := cuts_oneOrMore_one _

lemma fills_digits : Fills digits := fills_oneOrMore_one _

lemma consuming_digits : Consuming digits := consuming_of_takesSome rfl

lemma cuts_exponent : Cuts exponent := by
  have hrest : Cuts (.seq (.opt (.oneOf "+-")) digits) :=
    (cuts_one _).opt.seq (fills_one _).opt cuts_digits consuming_digits
  exact (cuts_one _).seq (fills_one _) hrest (consuming_of_takesSome rfl)

lemma cuts_fractional : Cuts fractional := by
  have hpoint : Cuts (.seq (.text ".") digits) :=
    (cuts_word _).seq (fills_word_singleton '.') cuts_digits consuming_digits
  have hfirst : Cuts (.seq (.opt digits) (.seq (.text ".") digits)) :=
    cuts_digits.opt.seq fills_digits.opt hpoint (consuming_of_takesSome rfl)
  have hsecond : Cuts (.seq digits (.text ".")) :=
    cuts_digits.seq fills_digits (cuts_word _) (consuming_of_takesSome rfl)
  exact hfirst.alt hsecond

theorem cuts_floatingConstant : Cuts floatingConstant := by
  have hpoint : Cuts (.seq fractional (.opt exponent)) :=
    cuts_fractional.seq_total cuts_exponent.opt (total_opt _)
  have hpower : Cuts (.seq digits exponent) :=
    cuts_digits.seq fills_digits cuts_exponent (consuming_of_takesSome rfl)
  exact (hpoint.alt hpower).seq_total (cuts_one _).opt (total_opt _)

/-- A zero, a letter and digits of another base. -/
def based (letters : String) (f : Char → Bool) : Pattern :=
  .inOrder [.text "0", .oneOf letters, .oneOrMore (.one f)]

/-- An integer constant without its suffix. -/
def wholeNumber : Pattern := .firstOf [based "xX" isHexDigit, based "bB" isBinaryDigit, digits]

/-- The letters at the end of an integer constant. -/
def integerSuffix : Pattern := .oneOrMore (.oneOf "uUlL")

theorem integerConstant_eq : integerConstant = .seq wholeNumber (.opt integerSuffix) := rfl

lemma cuts_based (letters : String) (f : Char → Bool) : Cuts (based letters f) := by
  have hrest : Cuts (.seq (.oneOf letters) (.oneOrMore (.one f))) :=
    (cuts_one _).seq (fills_one _) (cuts_oneOrMore_one f) (consuming_oneOrMore_one f)
  exact (cuts_word _).seq (fills_word_singleton '0') hrest (consuming_of_takesSome rfl)

theorem cuts_integerConstant : Cuts integerConstant := by
  have hwhole : Cuts wholeNumber := (cuts_based _ _).alt ((cuts_based _ _).alt cuts_digits)
  exact hwhole.seq_total (cuts_oneOrMore_one _).opt (total_opt _)

theorem cuts_numeral : Cuts numeral := cuts_floatingConstant.alt cuts_integerConstant

lemma solid_of {f : Char → Bool} (h : ∀ c ∈ " \t\r\n".toList, f c = false) (c : Char)
    (hc : f c = true) : isSolid c = true := by
  by_contra hblank
  have hmem : c ∈ " \t\r\n".toList := by
    rw [← List.contains_iff_mem]
    simpa only [isSolid, Bool.not_eq_true, Bool.not_eq_false'] using hblank
  rw [h c hmem] at hc
  cases hc

lemma isHexDigit_of_isDigit {c : Char} (h : isDigit c = true) : isHexDigit c = true := by
  rw [isHexDigit, h, Bool.true_or, Bool.true_or]

lemma isHexDigit_of_isBinaryDigit {c : Char} (h : isBinaryDigit c = true) :
    isHexDigit c = true := by
  have hall : ∀ c ∈ ['0', '1'], isHexDigit c = true := by decide
  exact hall c (by simpa [isBinaryDigit] using h)

lemma isJoint_of_isHexDigit {c : Char} (h : isHexDigit c = true) : isJoint c = true := by
  simp only [isHexDigit, Bool.or_eq_true, Bool.and_eq_true, decide_eq_true_eq] at h
  have hletter : c ≤ 'f' → c ≤ 'z' := fun h => Char.le_trans h (by decide)
  have hletter' : c ≤ 'F' → c ≤ 'Z' := fun h => Char.le_trans h (by decide)
  simp only [isJoint, isWordPart, isLetter, Bool.or_eq_true, Bool.and_eq_true, decide_eq_true_eq]
  tauto

section Class
variable {K : Char → Bool} (hdigit : ∀ c, isDigit c = true → K c = true)
include hdigit

lemma within_digits : digits.Within K := ⟨hdigit, consuming_of_takesSome rfl, hdigit⟩

lemma headIn_digits : digits.HeadIn K := ⟨hdigit, .inl rfl⟩

lemma within_fractional (hpoint : K '.' = true) : fractional.Within K := by
  have htext : (Pattern.text ".").Within K := within_text fun c hc => by
    obtain rfl : c = '.' := by simpa using hc
    exact hpoint
  have hdigits := within_digits hdigit
  exact ⟨⟨⟨hdigits, within_nothing K⟩, htext, hdigits⟩, hdigits, htext⟩

lemma within_exponent (hletter : ∀ c ∈ "eE".toList, K c = true)
    (hsign : ∀ c ∈ "+-".toList, K c = true) : exponent.Within K :=
  ⟨within_oneOf hletter, ⟨within_oneOf hsign, within_nothing K⟩, within_digits hdigit⟩

end Class

lemma within_based {K : Char → Bool} {letters : String} {f : Char → Bool} (hzero : K '0' = true)
    (hletters : ∀ c ∈ letters.toList, K c = true) (hf : ∀ c, f c = true → K c = true) :
    (based letters f).Within K := by
  refine ⟨within_text fun c hc => ?_, within_oneOf hletters, hf, consuming_of_takesSome rfl, hf⟩
  obtain rfl : c = '0' := by simpa using hc
  exact hzero

/-- An integer constant without its suffix is made of digits and the letters that tell a base. -/
lemma within_wholeNumber {K : Char → Bool} (hhex : ∀ c, isHexDigit c = true → K c = true)
    (hletter : ∀ c ∈ "xX".toList, K c = true) : wholeNumber.Within K := by
  have hbinary : ∀ c ∈ "bB".toList, isHexDigit c = true := by decide
  exact ⟨within_based (hhex _ rfl) hletter hhex,
    within_based (hhex _ rfl) (fun c hc => hhex c (hbinary c hc))
      fun c hc => hhex c (isHexDigit_of_isBinaryDigit hc),
    within_digits fun c hc => hhex c (isHexDigit_of_isDigit hc)⟩

/-- A numeral goes on by joint characters only. -/
theorem within_numeral : numeral.Within isJoint := by
  have hhex : ∀ c, isHexDigit c = true → isJoint c = true := fun c => isJoint_of_isHexDigit
  have hdigit : ∀ c, isDigit c = true → isJoint c = true :=
    fun c hc => hhex c (isHexDigit_of_isDigit hc)
  have hexponent : exponent.Within isJoint := within_exponent hdigit (by decide) (by decide)
  have hfloating : floatingConstant.Within isJoint :=
    ⟨⟨⟨within_fractional hdigit rfl, hexponent, within_nothing _⟩, within_digits hdigit, hexponent⟩,
      within_oneOf (by decide), within_nothing _⟩
  have hsuffix : ∀ c, "uUlL".toList.contains c = true → isJoint c = true :=
    within_oneOf (by decide)
  exact ⟨hfloating, within_wholeNumber hhex (by decide),
    ⟨hsuffix, consuming_of_takesSome rfl, hsuffix⟩, within_nothing _⟩

lemma consuming_numeral : Consuming numeral := consuming_of_takesSome rfl

/-- A numeral that was read is read again when the text further on changes to one that
does not begin with a joint character. -/
theorem width?_numeral_append {u a v w : List Char}
    (h : numeral.width? (u ++ (a ++ v)) = some u.length) (hw : Outside isJoint w) :
    numeral.width? (u ++ (a ++ w)) = some u.length := by
  rw [← List.append_assoc] at h ⊢
  rw [within_numeral.width?_append hw]
  exact cuts_numeral.keep h (by simp)

/-- The point in front of the digits of a number. -/
lemma isDigit_of_width?_numeral_point {s : List Char} {n : Nat}
    (h : numeral.width? ('.' :: s) = some n) : ∃ d r, s = d :: r ∧ isDigit d = true := by
  have hdigits : digits.width? ('.' :: s) = none := rfl
  have hinteger : integerConstant.width? ('.' :: s) = none := rfl
  rcases width?_alt_eq_some.1 h with h | ⟨-, h⟩
  · obtain ⟨a, -, h, -⟩ := width?_seq_eq_some.1 h
    rcases width?_alt_eq_some.1 h with h | ⟨-, h⟩
    · obtain ⟨a, -, h, -⟩ := width?_seq_eq_some.1 h
      rcases width?_alt_eq_some.1 h with h | ⟨-, h⟩
      · obtain ⟨b, c, hopt, h, -⟩ := width?_seq_eq_some.1 h
        rw [width?_opt, hdigits] at hopt
        obtain rfl := Option.some.inj hopt
        obtain ⟨d, e, hpoint, h, -⟩ := width?_seq_eq_some.1 h
        obtain ⟨-, rfl⟩ := width?_word_eq_some.1 hpoint
        have hhead : digits.HeadIn isDigit := ⟨fun _ h => h, .inl rfl⟩
        exact hhead.exists_head h (consuming_digits _ _ h)
      · obtain ⟨b, c, h, -⟩ := width?_seq_eq_some.1 h
        rw [hdigits] at h
        cases h
    · obtain ⟨b, c, h, -⟩ := width?_seq_eq_some.1 h
      rw [hdigits] at h
      cases h
  · rw [hinteger] at h
    cases h

/-- A numeral begins with a digit, or with a point and a digit. -/
theorem head_numeral {s : List Char} {n : Nat} (h : numeral.width? s = some n) :
    ∃ c r, s = c :: r ∧ (isDigit c = true ∨ c = '.' ∧ ∃ d r', r = d :: r' ∧ isDigit d = true) := by
  have hhead : numeral.HeadIn fun c => isDigit c || c = '.' := by
    have hd : digits.HeadIn fun c => isDigit c || c = '.' :=
      headIn_digits fun c hc => by rw [hc, Bool.true_or]
    have hfractional : fractional.HeadIn fun c => isDigit c || c = '.' :=
      ⟨⟨hd.opt, .inr ⟨headIn_text (by decide), .inl rfl⟩⟩, hd, .inl rfl⟩
    have hfloating : floatingConstant.HeadIn fun c => isDigit c || c = '.' :=
      ⟨⟨⟨hfractional, .inl rfl⟩, hd, .inl rfl⟩, .inl rfl⟩
    have hbased (letters : String) (f : Char → Bool) :
        (based letters f).HeadIn fun c => isDigit c || c = '.' :=
      ⟨headIn_text (by decide), .inl rfl⟩
    exact ⟨hfloating, ⟨hbased _ _, hbased _ _, hd⟩, .inl rfl⟩
  obtain ⟨c, r, rfl, hc⟩ := hhead.exists_head h (consuming_numeral _ _ h)
  refine ⟨c, r, rfl, ?_⟩
  simp only [Bool.or_eq_true, decide_eq_true_eq] at hc
  rcases hc with hc | rfl
  · exact .inl hc
  · exact .inr ⟨rfl, isDigit_of_width?_numeral_point h⟩

/-! ## Quotes -/

/-- What may stand in front of an opening quote. -/
def marks : List (List Char) := ["", "u8", "u", "U", "L"].map String.toList

/-- Text between quotes, with a mark in front. -/
def enclosed (quote : Char) (body : Pattern) : Pattern :=
  .inOrder [.opt encodingMark, .word [quote], body, .word [quote]]

theorem characterConstant_eq :
    characterConstant = enclosed '\'' (.oneOrMore (quoted '\'')) := rfl

theorem stringLiteral_eq : stringLiteral = enclosed '\"' (.many (quoted '\"')) := rfl

lemma isWordPart_of_mem_marks {m : List Char} (hm : m ∈ marks) : ∀ c ∈ m, isWordPart c = true := by
  have hall : ∀ m ∈ marks, ∀ c ∈ m, isWordPart c = true := by decide
  exact hall m hm

/-- The mark is the word in front of the quote. -/
lemma takeWhile_mark {m s : List Char} {c : Char} (hm : m ∈ marks) (hc : isWordPart c = false) :
    (m ++ c :: s).takeWhile isWordPart = m := by
  have hword := isWordPart_of_mem_marks hm
  rw [List.takeWhile_append_of_pos hword, List.takeWhile_cons, hc]
  simp

lemma width?_mark {m s : List Char} {c : Char} (hm : m ∈ marks) (hc : isWordPart c = false) :
    (Pattern.opt encodingMark).width? (m ++ c :: s) = some m.length := by
  have hwithin : (Pattern.opt encodingMark).Within isWordPart := by
    refine ⟨Within.firstOf ?_, within_nothing _⟩
    simp only [List.mem_cons, List.not_mem_nil, or_false]
    rintro p (rfl | rfl | rfl | rfl) <;> exact within_text (by decide)
  have hall : ∀ m ∈ marks, (Pattern.opt encodingMark).width? m = some m.length := by decide
  rw [hwithin.width?_append (outside_cons.2 hc), hall m hm]

lemma mem_marks_of_width? {s : List Char} {n : Nat}
    (h : (Pattern.opt encodingMark).width? s = some n) :
    ∃ m ∈ marks, s = m ++ s.drop n ∧ m.length = n := by
  have hword : ∀ m : String, m.toList ∈ marks → (Pattern.text m).width? s = some n →
      ∃ m ∈ marks, s = m ++ s.drop n ∧ m.length = n := by
    intro m hm h
    obtain ⟨⟨r, rfl⟩, rfl⟩ := width?_word_eq_some.1 h
    exact ⟨m.toList, hm, by rw [List.drop_left], rfl⟩
  rcases width?_alt_eq_some.1 h with h | ⟨-, h⟩
  · rcases width?_alt_eq_some.1 h with h | ⟨-, h⟩
    · exact hword _ (by decide) h
    · rcases width?_alt_eq_some.1 h with h | ⟨-, h⟩
      · exact hword _ (by decide) h
      · rcases width?_alt_eq_some.1 h with h | ⟨-, h⟩
        · exact hword _ (by decide) h
        · exact hword _ (by decide) h
  · exact hword "" (by decide) h

theorem width?_enclosed_eq_some {quote : Char} {body : Pattern} {s : List Char} {n : Nat}
    (hq : isWordPart quote = false) :
    (enclosed quote body).width? s = some n ↔
      ∃ m ∈ marks, ∃ r b, s = m ++ quote :: r ∧ body.width? r = some b ∧
        [quote] <+: r.drop b ∧ n = m.length + (1 + (b + 1)) := by
  constructor
  · intro h
    obtain ⟨a, k, ha, hk, rfl⟩ := width?_seq_eq_some.1 h
    obtain ⟨o, l, ho, hl, rfl⟩ := width?_seq_eq_some.1 hk
    obtain ⟨b, c, hb, hc, rfl⟩ := width?_seq_eq_some.1 hl
    obtain ⟨m, hm, hs, rfl⟩ := mem_marks_of_width? ha
    obtain ⟨⟨r, hr⟩, rfl⟩ := width?_word_eq_some.1 ho
    obtain ⟨hclose, rfl⟩ := width?_word_eq_some.1 hc
    rw [← hr] at hb hclose
    refine ⟨m, hm, r, b, by rw [hs, ← hr]; rfl, hb, hclose, rfl⟩
  · rintro ⟨m, hm, r, b, rfl, hb, hclose, rfl⟩
    have hopen : (Pattern.word [quote]).width? (quote :: r) = some 1 :=
      width?_word_eq_some.2 ⟨⟨r, rfl⟩, rfl⟩
    refine width?_seq_eq_some.2 ⟨m.length, _, width?_mark hm hq, ?_, rfl⟩
    rw [List.drop_left]
    refine width?_seq_eq_some.2 ⟨1, _, hopen, ?_, rfl⟩
    exact width?_seq_eq_some.2 ⟨b, 1, hb, width?_word_eq_some.2 ⟨hclose, rfl⟩, rfl⟩

lemma consuming_quoted (quote : Char) : Consuming (quoted quote) := consuming_of_takesSome rfl

/-- Without a backslash a turn takes one character, but neither the quote nor a line end. -/
lemma width?_quoted_of_ne {quote c : Char} (hc : c ≠ '\\') (w : List Char) :
    (quoted quote).width? (c :: w) = if c = quote ∨ isLineEnd c then none else some 1 := by
  have hescape : escapeSequence.width? (c :: w) = none := by
    refine width?_seq_eq_none.2 (.inl (width?_word_eq_none.2 ?_))
    rintro ⟨t, ht⟩
    exact hc (List.cons.inj ht).1.symm
  rw [quoted, width?_alt_of_none hescape, width?_one_cons]
  by_cases hq : c = quote <;> by_cases hend : isLineEnd c <;> simp [*]

/-- What a turn inside of quotes takes does not depend on what follows it. -/
lemma width?_quoted_take {quote : Char} {s : List Char} {n : Nat}
    (h : (quoted quote).width? s = some n) (w : List Char) :
    (quoted quote).width? (s.take n ++ w) = some n := by
  rcases width?_alt_eq_some.1 h with h | ⟨-, h⟩
  · obtain ⟨a, b, ha, hb, rfl⟩ := width?_seq_eq_some.1 h
    obtain ⟨⟨r, rfl⟩, rfl⟩ := width?_word_eq_some.1 ha
    obtain ⟨c, t, hr, -, rfl⟩ := width?_one_eq_some.1 hb
    obtain rfl : r = c :: t := hr
    rfl
  · obtain ⟨c, r, rfl, hc, rfl⟩ := width?_one_eq_some.1 h
    simp only [Bool.not_eq_true', Bool.or_eq_false_iff, decide_eq_false_iff_not] at hc
    obtain ⟨⟨hq, hback⟩, hend⟩ := hc
    show (quoted quote).width? (c :: w) = some 1
    rw [width?_quoted_of_ne hback, if_neg (by simp [hq, hend])]

/-- The text up to the closing quote is read the same way, whatever follows the quote. -/
lemma width?_many_quoted {quote : Char} {s : List Char} {n : Nat}
    (h : (Pattern.many (quoted quote)).width? s = some n) (hclose : [quote] <+: s.drop n)
    (hquote : quote ≠ '\\') (w : List Char) :
    (Pattern.many (quoted quote)).width? (s.take n ++ quote :: w) = some n := by
  refine many_induction (motive := fun s n => [quote] <+: s.drop n →
    (Pattern.many (quoted quote)).width? (s.take n ++ quote :: w) = some n)
    (consuming_quoted quote) ?_ ?_ h hclose
  · intro s _ _
    refine width?_many_of_none ?_
    show (quoted quote).width? (quote :: w) = none
    rw [width?_quoted_of_ne hquote, if_pos (.inl rfl)]
  · intro s a b ha hb ih hclose
    rw [← List.drop_drop] at hclose
    have hle := width?_le_length ha
    have hturn := width?_quoted_take ha ((s.drop a).take b ++ quote :: w)
    have hlen : (s.take a).length = a := by rw [List.length_take]; omega
    rw [List.take_add, List.append_assoc, width?_many_of_some (consuming_quoted quote) hturn,
      List.drop_left' hlen, ih hclose]
    rfl

end CTree.Lexical
