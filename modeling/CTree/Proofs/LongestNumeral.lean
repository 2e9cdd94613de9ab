import CTree.Proofs.LiteralText
import CTree.Proofs.LongestMatch

/-!
# Numerals are longest words

Floating constants and integer constants share their beginnings, and each has parts that may be
missing or fail halfway. Still a numeral takes the longest word of its language: each part begins
with a character by which the part in front of it cannot go on, and the first character behind
the leading digits tells what kind of numeral it is.
-/
namespace CTree.Lexical
open Pattern

variable {ds t u v : List Char} {n : Nat}

lemma not_contains_of {f : Char → Bool} {t : String} (h : ∀ c ∈ t.toList, f c = false) (c : Char)
    (hc : f c = true) : (!t.toList.contains c) = true := by
  have hnot : c ∉ t.toList := fun hmem => by simp [h c hmem] at hc
  simpa using hnot

lemma head_of_width?_text {c : Char} (h : (Pattern.word [c]).width? t = some n) :
    ∃ r, t = c :: r ∧ n = 1 := by
  obtain ⟨⟨r, rfl⟩, rfl⟩ := width?_word_eq_some.1 h
  exact ⟨r, rfl, rfl⟩

/-! ## Leading digits -/

lemma takesLongest_digits : TakesLongest digits := takesLongest_oneOrMore_one _

lemma mem_language_digits : u ∈ digits.language ↔ u ≠ [] ∧ ∀ c ∈ u, isDigit c = true := by
  rw [digits, mem_language_oneOrMore, mem_language_many_one, and_comm]
  simp

lemma within_opt_digits : (Pattern.opt digits).Within isDigit :=
  ⟨within_digits fun _ h => h, within_nothing _⟩

/-- Digits are taken up to the first character that is none. -/
lemma width?_opt_digits (hds : ∀ c ∈ ds, isDigit c = true) (ht : Outside isDigit t) :
    (Pattern.opt digits).width? (ds ++ t) = some ds.length := by
  have hmem : ds ∈ (Pattern.opt digits).language := by
    rw [mem_language_opt, mem_language_digits]
    by_cases hnil : ds = []
    · exact .inr hnil
    · exact .inl ⟨hnil, hds⟩
  exact takesLongest_digits.opt.width?_append within_opt_digits hmem ht

lemma eq_length_of_width?_digits (hds : ∀ c ∈ ds, isDigit c = true) (ht : Outside isDigit t)
    (h : digits.width? (ds ++ t) = some n) : n = ds.length := by
  have hopt := width?_opt_digits hds ht
  rw [width?_opt, h] at hopt
  exact Option.some.inj hopt

/-- Behind its leading digits a fractional number has a point. -/
lemma fractional_parts (hds : ∀ c ∈ ds, isDigit c = true) (ht : Outside isDigit t)
    (h : fractional.width? (ds ++ t) = some n) : (∃ r, t = '.' :: r) ∧ ds.length < n := by
  rcases width?_alt_eq_some.1 h with h | ⟨-, h⟩
  · obtain ⟨a, b, ha, hb, rfl⟩ := width?_seq_eq_some.1 h
    rw [width?_opt_digits hds ht] at ha
    obtain rfl := Option.some.inj ha
    obtain ⟨k, m, hk, -, rfl⟩ := width?_seq_eq_some.1 hb
    rw [List.drop_left] at hk
    obtain ⟨r, rfl, rfl⟩ := head_of_width?_text hk
    exact ⟨⟨r, rfl⟩, by omega⟩
  · obtain ⟨a, b, ha, hb, rfl⟩ := width?_seq_eq_some.1 h
    obtain rfl := eq_length_of_width?_digits hds ht ha
    rw [List.drop_left] at hb
    obtain ⟨r, rfl, rfl⟩ := head_of_width?_text hb
    exact ⟨⟨r, rfl⟩, Nat.lt_succ_self _⟩

/-- Behind its leading digits a floating constant has a point or the letter of an exponent. -/
lemma floating_parts (hds : ∀ c ∈ ds, isDigit c = true) (ht : Outside isDigit t)
    (h : floatingConstant.width? (ds ++ t) = some n) :
    (∃ c r, t = c :: r ∧ c ∈ ".eE".toList) ∧ ds.length < n := by
  obtain ⟨a, _, ha, -, rfl⟩ := width?_seq_eq_some.1 h
  rcases width?_alt_eq_some.1 ha with ha | ⟨-, ha⟩
  · obtain ⟨b, k, hb, -, rfl⟩ := width?_seq_eq_some.1 ha
    obtain ⟨⟨r, rfl⟩, hlt⟩ := fractional_parts hds ht hb
    exact ⟨⟨'.', r, rfl, by decide⟩, by omega⟩
  · obtain ⟨b, k, hb, hk, rfl⟩ := width?_seq_eq_some.1 ha
    obtain rfl := eq_length_of_width?_digits hds ht hb
    rw [List.drop_left] at hk
    have hpos : 0 < k := consuming_of_takesSome (p := exponent) rfl _ _ hk
    obtain ⟨_, _, hletter, -, -⟩ := width?_seq_eq_some.1 hk
    obtain ⟨c, r, rfl, hc, -⟩ := width?_one_eq_some.1 hletter
    have hpower : "eE".toList ⊆ ".eE".toList := by decide
    exact ⟨⟨c, r, rfl, hpower (List.contains_iff_mem.1 hc)⟩, by omega⟩

/-- A floating constant goes on behind the digits that it begins with. -/
lemma length_lt_of_width?_floatingConstant (hu : ∀ c ∈ u, isDigit c = true)
    (h : floatingConstant.width? (u ++ v) = some n) : u.length < n := by
  have hrest : Outside isDigit (v.dropWhile isDigit) := by
    intro c hc
    have hnot := List.head?_dropWhile_not isDigit v
    rwa [Option.mem_def.1 hc] at hnot
  have hrun : ∀ c ∈ u ++ v.takeWhile isDigit, isDigit c = true := by
    intro c hc
    exact (List.mem_append.1 hc).elim (hu c) List.mem_takeWhile_imp
  rw [← List.takeWhile_append_dropWhile (p := isDigit) (l := v), ← List.append_assoc] at h
  have hlt := (floating_parts hrun hrest h).2
  rw [List.length_append] at hlt
  omega

/-! ## Floating constants -/

theorem takesLongest_fractional : TakesLongest fractional := by
  have hpoint : TakesLongest (.seq (.text ".") digits) :=
    (takesLongest_word _).seq takesLongest_digits (K := ".".toList.contains)
      (within_text (by decide)) (headIn_digits (not_contains_of (by decide)))
      (.inl consuming_digits)
  have hfirst : TakesLongest (.seq (.opt digits) (.seq (.text ".") digits)) :=
    takesLongest_digits.opt.seq hpoint within_opt_digits ⟨headIn_text (by decide), .inl rfl⟩
      (.inl (consuming_of_takesSome rfl))
  have hsecond : TakesLongest (.seq digits (.text ".")) :=
    takesLongest_digits.seq (takesLongest_word _) (within_digits fun _ h => h)
      (headIn_text (by decide)) (.inl (consuming_of_takesSome rfl))
  refine hfirst.alt hsecond ?_
  intro u hu v n hn
  obtain ⟨ds, hds, _, rfl, rfl⟩ := mem_language_seq.1 hu
  have hpoint : Outside isDigit (".".toList ++ v) := outside_cons.2 (by decide)
  rw [List.append_assoc] at hn
  have hlt := (fractional_parts (mem_language_digits.1 hds).2 hpoint (width?_alt_of_some hn)).2
  simpa using hlt

theorem takesLongest_exponent : TakesLongest exponent := by
  have hpower : TakesLongest (.seq (.opt (.oneOf "+-")) digits) :=
    (takesLongest_one _).opt.seq takesLongest_digits (K := "+-".toList.contains)
      ⟨fun _ h => h, within_nothing _⟩ (headIn_digits (not_contains_of (by decide)))
      (.inl consuming_digits)
  refine (takesLongest_one _).seq hpower (K := "eE".toList.contains) (fun _ h => h) ?_
    (.inl (consuming_of_takesSome rfl))
  exact ⟨(headIn_oneOf (by decide)).opt, .inr (headIn_digits (not_contains_of (by decide)))⟩

lemma headIn_exponent {K : Char → Bool} (h : ∀ c ∈ "eE".toList, K c = true) : exponent.HeadIn K :=
  ⟨headIn_oneOf h, .inl rfl⟩

/-- A character of a floating constant in front of its suffix. -/
def isFloatingPart (c : Char) : Bool := isDigit c || ".eE+-".toList.contains c

theorem takesLongest_floatingConstant : TakesLongest floatingConstant := by
  have hpoint : TakesLongest (.seq fractional (.opt exponent)) :=
    takesLongest_fractional.seq takesLongest_exponent.opt (K := fun c => isDigit c || c = '.')
      (within_fractional (fun c hc => by rw [hc, Bool.true_or]) (by decide))
      (headIn_exponent (by decide)).opt (.inr (total_opt _))
  have hpower : TakesLongest (.seq digits exponent) :=
    takesLongest_digits.seq takesLongest_exponent (within_digits fun _ h => h)
      (headIn_exponent (by decide)) (.inl (consuming_of_takesSome rfl))
  have hnumber : TakesLongest (.alt (.seq fractional (.opt exponent)) (.seq digits exponent)) := by
    refine hpoint.alt hpower ?_
    intro u hu v n hn
    -- Digits with an exponent right behind them have no point, so the first form fails.
    obtain ⟨ds, hds, e, he, rfl⟩ := mem_language_seq.1 hu
    obtain ⟨c, r, rfl, hc⟩ :=
      takesLongest_exponent.exists_head (K := fun c => !isDigit c && c != '.')
        (headIn_exponent (by decide)) he
        (takesLongest_exponent.ne_nil (consuming_of_takesSome rfl) he)
    simp only [Bool.and_eq_true, Bool.not_eq_true', bne_iff_ne] at hc
    obtain ⟨a, _, ha, -, rfl⟩ := width?_seq_eq_some.1 hn
    rw [List.append_assoc] at ha
    obtain ⟨⟨t, ht⟩, -⟩ :=
      fractional_parts (mem_language_digits.1 hds).2 (outside_cons.2 hc.1) ha
    exact absurd (List.cons.inj ht).1 hc.2
  have hdigit (c : Char) (h : isDigit c = true) : isFloatingPart c = true := by
    rw [isFloatingPart, h, Bool.true_or]
  have hexponent : exponent.Within isFloatingPart := within_exponent hdigit (by decide) (by decide)
  exact hnumber.seq (takesLongest_one _).opt
    ⟨⟨within_fractional hdigit (by decide), hexponent, within_nothing _⟩,
      within_digits hdigit, hexponent⟩
    (headIn_oneOf (by decide)).opt (.inr (total_opt _))

/-! ## Integer constants -/

lemma based_parts {letters : String} {f : Char → Bool}
    (h : (based letters f).width? t = some n) :
    ∃ c r, t = '0' :: c :: r ∧ c ∈ letters.toList ∧ 2 < n := by
  obtain ⟨a, b, ha, hb, rfl⟩ := width?_seq_eq_some.1 h
  obtain ⟨r, rfl, rfl⟩ := head_of_width?_text ha
  obtain ⟨k, m, hk, hm, rfl⟩ := width?_seq_eq_some.1 hb
  have hpos := consuming_oneOrMore_one f _ _ hm
  obtain ⟨c, r', hr, hc, rfl⟩ := width?_one_eq_some.1 hk
  obtain rfl : r = c :: r' := hr
  exact ⟨c, r', rfl, List.contains_iff_mem.1 hc, by omega⟩

lemma takesLongest_based {letters : String} {f : Char → Bool}
    (hzero : '0' ∉ letters.toList) (hf : ∀ c ∈ letters.toList, f c = false) :
    TakesLongest (based letters f) := by
  have hrest : TakesLongest (.seq (.oneOf letters) (.oneOrMore (.one f))) :=
    (takesLongest_one _).seq (takesLongest_oneOrMore_one f) (K := letters.toList.contains)
      (fun _ h => h) ⟨not_contains_of hf, .inl rfl⟩ (.inl (consuming_oneOrMore_one f))
  refine (takesLongest_word _).seq hrest (K := "0".toList.contains) (within_text (by decide)) ?_
    (.inl (consuming_of_takesSome rfl))
  refine ⟨headIn_oneOf fun c hc => ?_, .inl rfl⟩
  have hne : c ≠ '0' := ne_of_mem_of_not_mem hc hzero
  simpa using hne

lemma takesLongest_hex : TakesLongest (based "xX" isHexDigit) :=
  takesLongest_based (by decide) (by decide)

lemma takesLongest_binary : TakesLongest (based "bB" isBinaryDigit) :=
  takesLongest_based (by decide) (by decide)

/-- Of digits in front of a based number there is at most the leading zero. -/
lemma length_le_of_width?_based {letters : String} {f : Char → Bool}
    (hletters : ∀ c ∈ letters.toList, isDigit c = false) (hu : ∀ c ∈ u, isDigit c = true)
    (h : (based letters f).width? (u ++ v) = some n) : u.length ≤ n := by
  obtain ⟨c, r, heq, hc, hlt⟩ := based_parts h
  rcases u with - | ⟨d, - | ⟨e, u⟩⟩
  · exact Nat.zero_le n
  · rw [List.length_singleton]
    omega
  · obtain rfl : e = c := (List.cons.inj (List.cons.inj heq).2).1
    have he := hu e (by simp)
    rw [hletters e hc] at he
    cases he

theorem takesLongest_wholeNumber : TakesLongest wholeNumber := by
  have hsmall : TakesLongest (.alt (based "bB" isBinaryDigit) digits) :=
    takesLongest_binary.alt takesLongest_digits fun u hu v n hn =>
      length_le_of_width?_based (by decide) (mem_language_digits.1 hu).2 hn
  refine takesLongest_hex.alt hsmall ?_
  intro u hu v n hn
  rcases mem_language_alt.1 hu with hu | hu
  · -- The letter that makes a number hexadecimal is not the one that makes it binary.
    obtain ⟨c, r, rfl, hc, -⟩ := based_parts (takesLongest_binary.width?_self hu)
    obtain ⟨d, t, heq, hd, -⟩ := based_parts hn
    obtain rfl : c = d := (List.cons.inj (List.cons.inj heq).2).1
    have hdisjoint : ∀ c ∈ "bB".toList, c ∉ "xX".toList := by decide
    exact absurd hd (hdisjoint c hc)
  · exact length_le_of_width?_based (by decide) (mem_language_digits.1 hu).2 hn

lemma takesLongest_integerSuffix : TakesLongest integerSuffix := takesLongest_oneOrMore_one _

lemma headIn_integerSuffix {K : Char → Bool} (h : ∀ c ∈ "uUlL".toList, K c = true) :
    integerSuffix.HeadIn K := ⟨headIn_oneOf h, .inl rfl⟩

/-- A character of an integer constant in front of its suffix. -/
def isWholePart (c : Char) : Bool := isHexDigit c || "xX".toList.contains c

theorem takesLongest_integerConstant : TakesLongest integerConstant := by
  have hhex (c : Char) (h : isHexDigit c = true) : isWholePart c = true := by
    rw [isWholePart, h, Bool.true_or]
  exact takesLongest_wholeNumber.seq takesLongest_integerSuffix.opt
    (within_wholeNumber hhex (by decide)) (headIn_integerSuffix (by decide)).opt
    (.inr (total_opt _))

/-- An integer constant is made of digits, or has a letter behind its leading digits. -/
lemma integerConstant_parts (h : u ∈ integerConstant.language) : (∀ c ∈ u, isDigit c = true) ∨
    ∃ ds c r, u = ds ++ c :: r ∧ (∀ d ∈ ds, isDigit d = true) ∧ c ∈ "xXbBuUlL".toList := by
  have hbased {letters : String} {f : Char → Bool} {a b : List Char}
      (hlong : TakesLongest (based letters f)) (ha : a ∈ (based letters f).language)
      (hletters : letters.toList ⊆ "xXbBuUlL".toList) :
      ∃ ds c r, a ++ b = ds ++ c :: r ∧ (∀ d ∈ ds, isDigit d = true) ∧ c ∈ "xXbBuUlL".toList := by
    obtain ⟨c, r, rfl, hc, -⟩ := based_parts (hlong.width?_self ha)
    exact ⟨['0'], c, r ++ b, rfl, by decide, hletters hc⟩
  rw [integerConstant_eq] at h
  obtain ⟨a, ha, b, hb, rfl⟩ := mem_language_seq.1 h
  rcases mem_language_alt.1 ha with ha | ha
  · exact .inr (hbased takesLongest_hex ha (by decide))
  rcases mem_language_alt.1 ha with ha | ha
  · exact .inr (hbased takesLongest_binary ha (by decide))
  have hdigits := (mem_language_digits.1 ha).2
  rcases mem_language_opt.1 hb with hb | rfl
  · obtain ⟨c, r, rfl, hc⟩ := takesLongest_integerSuffix.exists_head
      (K := "xXbBuUlL".toList.contains) (headIn_integerSuffix (by decide)) hb
      (takesLongest_integerSuffix.ne_nil (consuming_of_takesSome rfl) hb)
    exact .inr ⟨a, c, r, rfl, hdigits, List.contains_iff_mem.1 hc⟩
  · rw [List.append_nil]
    exact .inl hdigits

/-! ## Both kinds -/

theorem takesLongest_numeral : TakesLongest numeral := by
  refine takesLongest_floatingConstant.alt takesLongest_integerConstant ?_
  intro u hu v n hn
  rcases integerConstant_parts hu with hdigits | ⟨ds, c, r, rfl, hds, hc⟩
  · exact (length_lt_of_width?_floatingConstant hdigits hn).le
  · -- By this letter no floating constant goes on.
    have hletters : ∀ c ∈ "xXbBuUlL".toList, isDigit c = false ∧ c ∉ ".eE".toList := by decide
    rw [List.append_assoc] at hn
    obtain ⟨⟨d, t, heq, hd⟩, -⟩ := floating_parts hds (outside_cons.2 (hletters c hc).1) hn
    rw [← (List.cons.inj heq).1] at hd
    exact absurd hd (hletters c hc).2

end CTree.Lexical
