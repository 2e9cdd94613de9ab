import CTree.Proofs.GapChange
import CTree.Proofs.LongestNumeral
import CTree.Proofs.ReservedWords
import Mathlib.Data.List.DropRight

/-!
# Constants and string literals are longest words

A constant or a string literal takes the longest word of its language. What stands in quotes is
no beginning of another word in quotes: it ends at the first quote that is not escaped. Where a
line end that is not escaped or the end of the text comes before that quote, nothing is taken.
-/
namespace CTree.Lexical
open Pattern

/-! ## Quotes -/

section Quotes
variable {u v b m r front : List Char} {quote : Char} {body : Pattern} {n : Nat}

/-- The text ends with an odd number of backslashes, so that what follows it is escaped. -/
def Escapes (front : List Char) : Prop := Odd (front.rtakeWhile fun c => c = '\\').length

instance : DecidablePred Escapes := fun front =>
  inferInstanceAs (Decidable (Odd (front.rtakeWhile fun c => c = '\\').length))

/-- The text may stand in front of the closing quote: that quote is not escaped, and no other
quote of the kind and no line end is in the text but escaped. -/
structure UpToQuote (quote : Char) (body : List Char) : Prop where
  closes : ¬ Escapes body
  inside : ∀ front c back, body = front ++ c :: back → ¬ Escapes front →
    c ≠ quote ∧ isLineEnd c = false

lemma not_escapes_singleton {c : Char} (hc : c ≠ '\\') : ¬ Escapes [c] := by
  simp [Escapes, List.rtakeWhile, hc]

lemma not_escapes_escape (c : Char) : ¬ Escapes ['\\', c] := by
  by_cases hc : c = '\\'
  · subst hc
    decide
  · simp [Escapes, List.rtakeWhile, hc]

/-- Whether a text escapes what follows does not depend on what it stands behind, unless it is
escaped itself. -/
lemma escapes_append (h : ¬ Escapes u) : Escapes (u ++ v) ↔ Escapes v := by
  rw [Escapes, Nat.not_odd_iff_even] at h
  simp only [Escapes, List.rtakeWhile, List.length_reverse, List.reverse_append,
    List.takeWhile_append] at h ⊢
  split
  · rename_i hall
    rw [List.length_append, List.length_reverse, Nat.odd_add, hall, iff_true_right h]
  · rfl

lemma mem_language_quoted : u ∈ (quoted quote).language ↔ (∃ c, u = ['\\', c]) ∨
    ∃ c, c ≠ '\\' ∧ c ≠ quote ∧ isLineEnd c = false ∧ u = [c] := by
  rw [quoted, mem_language_alt]
  refine or_congr ?_ ?_
  · constructor
    · intro h
      obtain ⟨_, rfl, _, ⟨c, -, rfl⟩, rfl⟩ := mem_language_seq.1 h
      exact ⟨c, rfl⟩
    · rintro ⟨c, rfl⟩
      exact mem_language_seq.2 ⟨_, rfl, [c], ⟨c, rfl, rfl⟩, rfl⟩
  · rw [mem_language_one]
    refine exists_congr fun c => ?_
    by_cases hq : c = quote <;> by_cases hback : c = '\\' <;> simp [*]

/-- A look-ahead in front of any character says the same as the class that leaves out what the
look-ahead refuses. -/
theorem width?_quoted_lookAhead (quote : Char) (s : List Char) :
    (Pattern.alt escapeSequence
      (.seq (.absent (.firstOf [.word [quote], .text "\\", lineEnd])) .any)).width? s =
        (quoted quote).width? s := by
  rw [quoted, width?_alt, width?_alt]
  congr 1
  cases s with
  | nil => rfl
  | cons c s =>
    have hend : lineEnd.width? (c :: s) = none ↔ isLineEnd c = false :=
      ⟨fun h => not_isLineEnd_of_width?_lineEnd h c rfl,
        fun h => width?_lineEnd_eq_none fun d hd => Option.some.inj hd ▸ h⟩
    have hbanned : (firstOf [.word [quote], .text "\\", lineEnd]).width? (c :: s) = none ↔
        ¬ (c = quote ∨ c = '\\' ∨ isLineEnd c = true) := by
      have hback : (Pattern.text "\\").width? (c :: s) = none ↔ '\\' ≠ c := by
        rw [Pattern.text, width?_word_eq_none]
        simp
      simp only [firstOf, width?_alt_eq_none, width?_word_eq_none, hback, hend,
        List.cons_prefix_cons, List.nil_prefix, and_true, not_or, Bool.not_eq_true]
      exact and_congr ne_comm (and_congr ne_comm Iff.rfl)
    have hclass : (!(c = quote || c = '\\' || isLineEnd c)) = true ↔
        ¬ (c = quote ∨ c = '\\' ∨ isLineEnd c = true) := by
      simp [not_or, and_assoc]
    rw [width?_seq, width?_absent, width?_one_cons]
    by_cases h : c = quote ∨ c = '\\' ∨ isLineEnd c = true
    · obtain ⟨n, hn⟩ := Option.ne_none_iff_exists'.1 fun hnone => hbanned.1 hnone h
      rw [hn, Option.isSome_some, if_pos rfl, if_neg fun hc => hclass.1 hc h]
      rfl
    · rw [hbanned.2 h, Option.isSome_none, if_neg Bool.false_ne_true, if_pos (hclass.2 h)]
      rfl

/-- A turn between quotes takes what it takes, whatever follows. -/
lemma width?_quoted_append (hu : u ∈ (quoted quote).language) (w : List Char) :
    (quoted quote).width? (u ++ w) = some u.length := by
  rcases mem_language_quoted.1 hu with ⟨c, rfl⟩ | ⟨c, hback, hq, hend, rfl⟩
  · rfl
  · rw [List.singleton_append, width?_quoted_of_ne hback, if_neg (by simp [hq, hend])]
    rfl

theorem UpToQuote.nil : UpToQuote quote [] where
  closes := by decide
  inside := by simp

theorem UpToQuote.append (hu : UpToQuote quote u) (hv : UpToQuote quote v) :
    UpToQuote quote (u ++ v) where
  closes := by
    rw [escapes_append hu.closes]
    exact hv.closes
  inside := by
    intro front c back heq hfront
    rcases List.append_eq_append_iff.1 heq with ⟨w, rfl, hw⟩ | ⟨w, rfl, hw⟩
    · rw [escapes_append hu.closes] at hfront
      exact hv.inside w c back hw hfront
    · cases w with
      | nil => exact hv.inside [] c back hw.symm (by decide)
      | cons d w =>
        obtain rfl : c = d := (List.cons.inj hw).1
        exact hu.inside front c w rfl hfront

/-- What is left behind a part that escapes nothing. -/
theorem UpToQuote.of_append (h : UpToQuote quote (u ++ v)) (hu : ¬ Escapes u) :
    UpToQuote quote v where
  closes := by
    rw [← escapes_append hu]
    exact h.closes
  inside := by
    rintro front c back rfl hfront
    rw [← escapes_append hu] at hfront
    exact h.inside (u ++ front) c back (List.append_assoc u front _).symm hfront

lemma upToQuote_of_mem_quoted (hquote : quote ≠ '\\') (hu : u ∈ (quoted quote).language) :
    UpToQuote quote u := by
  rcases mem_language_quoted.1 hu with ⟨c, rfl⟩ | ⟨c, hback, hq, hend, rfl⟩
  · refine ⟨not_escapes_escape c, ?_⟩
    intro front d back heq hfront
    rcases front with - | ⟨e, - | ⟨f, front⟩⟩
    · obtain rfl : '\\' = d := (List.cons.inj heq).1
      exact ⟨hquote.symm, rfl⟩
    · obtain rfl : '\\' = e := (List.cons.inj heq).1
      exact absurd (by decide) hfront
    · simp at heq
  · refine ⟨not_escapes_singleton hback, ?_⟩
    rintro front d back heq -
    obtain ⟨rfl, rfl, -⟩ : front = [] ∧ d = c ∧ back = [] := by
      simpa [List.singleton_eq_append_iff] using heq
    exact ⟨hq, hend⟩

/-- Turns between quotes make up the texts that may stand in front of the closing one. -/
theorem mem_language_many_quoted (hquote : quote ≠ '\\') :
    b ∈ (many (quoted quote)).language ↔ UpToQuote quote b := by
  constructor
  · intro hb
    refine language_many_induction .nil (fun u v hu _ _ hv => ?_) hb
    exact (upToQuote_of_mem_quoted hquote hu).append hv
  · intro h
    induction hm : b.length using Nat.strongRecOn generalizing b with
    | ind m ih =>
      have hturn (u v : List Char) (heq : b = u ++ v) (hu : u ∈ (quoted quote).language)
          (hpos : 0 < u.length) : b ∈ (many (quoted quote)).language := by
        subst heq
        have hv := h.of_append (upToQuote_of_mem_quoted hquote hu).closes
        rw [List.length_append] at hm
        exact append_mem_language_many hu (ih v.length (by omega) hv rfl)
      rcases b with - | ⟨c, b⟩
      · exact Language.nil_mem_kstar _
      · obtain ⟨hq, hend⟩ := h.inside [] c b rfl (by decide)
        by_cases hback : c = '\\'
        · subst hback
          rcases b with - | ⟨d, b⟩
          · exact absurd (by decide) h.closes
          · exact hturn ['\\', d] b rfl (mem_language_quoted.2 (.inl ⟨d, rfl⟩)) (by simp)
        · exact hturn [c] b rfl (mem_language_quoted.2 (.inr ⟨c, hback, hq, hend, rfl⟩)) (by simp)

/-- The closing quote ends the turns. -/
lemma width?_many_quoted_append (hquote : quote ≠ '\\') (hb : b ∈ (many (quoted quote)).language)
    (w : List Char) : (many (quoted quote)).width? (b ++ quote :: w) = some b.length := by
  refine language_many_induction
    (motive := fun b => (many (quoted quote)).width? (b ++ quote :: w) = some b.length) ?_ ?_ hb
  · refine width?_many_of_none ?_
    rw [List.nil_append, width?_quoted_of_ne hquote, if_pos (.inl rfl)]
  · intro u v hu _ _ ih
    rw [List.append_assoc, width?_many_of_some (consuming_quoted quote) (width?_quoted_append hu _),
      List.drop_left, ih, List.length_append]
    rfl

lemma mem_language_mark : m ∈ (Pattern.opt encodingMark).language ↔ m ∈ marks := by
  simp [mem_language_opt, encodingMark, firstOf, mem_language_alt, Pattern.text, marks]
  tauto

/-- The words of a pattern in quotes. -/
lemma mem_language_enclosed : u ∈ (enclosed quote body).language ↔
    ∃ m ∈ marks, ∃ b ∈ body.language, u = m ++ quote :: (b ++ [quote]) := by
  constructor
  · intro h
    obtain ⟨m, hm, _, hopen, rfl⟩ := mem_language_seq.1 h
    obtain ⟨_, rfl, _, hclose, rfl⟩ := mem_language_seq.1 hopen
    obtain ⟨b, hb, _, rfl, rfl⟩ := mem_language_seq.1 hclose
    exact ⟨m, mem_language_mark.1 hm, b, hb, rfl⟩
  · rintro ⟨m, hm, b, hb, rfl⟩
    have hclose : b ++ [quote] ∈ (Pattern.seq body (.word [quote])).language :=
      mem_language_seq.2 ⟨b, hb, _, rfl, rfl⟩
    exact mem_language_seq.2 ⟨m, mem_language_mark.2 hm, _,
      mem_language_seq.2 ⟨[quote], rfl, _, hclose, rfl⟩, rfl⟩

/-- Behind an opening quote the pattern takes a word of its body and the quote behind it. -/
lemma width?_enclosed_mark (hword : isWordPart quote = false)
    (hbody : ∀ b ∈ body.language, ∀ w, body.width? (b ++ quote :: w) = some b.length)
    (hm : m ∈ marks) : (enclosed quote body).width? (m ++ quote :: r) = some n ↔
      ∃ b ∈ body.language, ∃ rest, r = b ++ quote :: rest ∧
        n = (m ++ quote :: (b ++ [quote])).length := by
  rw [width?_enclosed_eq_some hword]
  constructor
  · rintro ⟨m', hm', r', k, heq, hk, ⟨rest, hrest⟩, rfl⟩
    obtain rfl : m = m' := by
      have htake := congrArg (List.takeWhile isWordPart) heq
      rwa [takeWhile_mark hm hword, takeWhile_mark hm' hword] at htake
    obtain rfl : r = r' := by simpa using heq
    have hlength := List.length_take_of_le (width?_le_length hk)
    refine ⟨r.take k, take_mem_language hk, rest, ?_, ?_⟩
    · rw [← List.singleton_append, hrest, List.take_append_drop]
    · simp only [List.length_append, List.length_cons, List.length_nil, hlength]
      omega
  · rintro ⟨b, hb, rest, rfl, rfl⟩
    refine ⟨m, hm, _, b.length, rfl, hbody b hb rest, ?_, ?_⟩
    · rw [List.drop_left]
      exact ⟨rest, rfl⟩
    · simp only [List.length_append, List.length_cons, List.length_nil]
      omega

theorem takesLongest_enclosed (hword : isWordPart quote = false)
    (hbody : ∀ b ∈ body.language, ∀ w, body.width? (b ++ quote :: w) = some b.length) :
    TakesLongest (enclosed quote body) := by
  intro u hu v
  obtain ⟨m, hm, b, hb, rfl⟩ := mem_language_enclosed.1 hu
  refine ⟨_, ?_, Nat.le_refl _⟩
  rw [List.append_assoc, List.cons_append, List.append_assoc, List.singleton_append]
  exact (width?_enclosed_mark hword hbody hm).2 ⟨b, hb, v, rfl, rfl⟩

/-- Every quote of the text that is not escaped has a line end in front of it that is not escaped
either. The text may well have no such quote. -/
def NeverCloses (quote : Char) (r : List Char) : Prop :=
  ∀ body rest, r = body ++ quote :: rest → ¬ Escapes body →
    ∃ front c back, body = front ++ c :: back ∧ ¬ Escapes front ∧ isLineEnd c = true

theorem neverCloses_iff :
    NeverCloses quote r ↔ ∀ body rest, r = body ++ quote :: rest → ¬ UpToQuote quote body := by
  constructor
  · intro h body rest heq hbody
    obtain ⟨front, c, back, hsplit, hfront, hc⟩ := h body rest heq hbody.closes
    rw [(hbody.inside front c back hsplit hfront).2] at hc
    cases hc
  · intro h body rest heq hbody
    induction hm : body.length using Nat.strongRecOn generalizing body rest with
    | ind k ih =>
      -- The first unescaped character that may not stand in the quotes is a line end or a quote.
      obtain ⟨front, c, back, rfl, hfront, hc⟩ : ∃ front c back, body = front ++ c :: back ∧
          ¬ Escapes front ∧ (c = quote ∨ isLineEnd c = true) := by
        by_contra hno
        refine h body rest heq ⟨hbody, fun front c back hsplit hfront => ?_⟩
        by_contra hbad
        refine hno ⟨front, c, back, hsplit, hfront, ?_⟩
        by_cases hq : c = quote
        · exact .inl hq
        · exact .inr (by simpa [hq] using hbad)
      rcases hc with rfl | hc
      · have hlt : front.length < k := by
          rw [← hm, List.length_append, List.length_cons]
          omega
        obtain ⟨front', d, back', rfl, hfront', hd⟩ := ih front.length hlt front
          (back ++ c :: rest) (by rw [heq, List.append_assoc, List.cons_append]) hfront rfl
        exact ⟨front', d, back' ++ c :: back, by rw [List.append_assoc, List.cons_append],
          hfront', hd⟩
      · exact ⟨front, c, back, rfl, hfront, hc⟩

end Quotes

/-! ## Both kinds of literals -/

/-- The tokens with a form in quotes. -/
inductive Literal
  | constant
  | string
  deriving Repr, DecidableEq

namespace Literal
variable {b m r : List Char} {n : Nat}

def token : Literal → Token
  | constant => .constant
  | string => .stringLiteral

def quote : Literal → Char
  | constant => '\''
  | string => '\"'

/-- The least number of characters between the quotes. -/
def least : Literal → Nat
  | constant => 1
  | string => 0

/-- What is read between the quotes. -/
def body : Literal → Pattern
  | constant => .oneOrMore (quoted '\'')
  | string => .many (quoted '\"')

theorem mem_language_body (l : Literal) :
    b ∈ l.body.language ↔ l.least ≤ b.length ∧ UpToQuote l.quote b := by
  cases l with
  | constant =>
    have hnil : [] ∉ (quoted '\'').language := by simp [mem_language_quoted]
    rw [body, mem_language_oneOrMore, mem_language_many_quoted (by decide), or_iff_left hnil,
      and_comm, ← List.length_pos_iff]
    rfl
  | string =>
    rw [body, mem_language_many_quoted (by decide)]
    exact (and_iff_right (Nat.zero_le _)).symm

lemma width?_body_append (l : Literal) (hb : b ∈ l.body.language) (w : List Char) :
    l.body.width? (b ++ l.quote :: w) = some b.length := by
  cases l with
  | constant =>
    obtain ⟨hmany, -⟩ := mem_language_oneOrMore.1 hb
    have hpos := (constant.mem_language_body.1 hb).1
    exact (width?_oneOrMore_eq_some (consuming_quoted _)).2
      ⟨width?_many_quoted_append (by decide) hmany w, hpos⟩
  | string => exact width?_many_quoted_append (by decide) hb w

lemma isWordPart_quote (l : Literal) : isWordPart l.quote = false := by cases l <;> decide

theorem takesLongest_enclosed (l : Literal) : TakesLongest (enclosed l.quote l.body) :=
  Lexical.takesLongest_enclosed l.isWordPart_quote fun _ hb => l.width?_body_append hb

/-- No numeral begins with a quote or with an encoding mark. -/
lemma width?_numeral_mark (hm : m ∈ marks) : numeral.width? (m ++ '\'' :: r) = none := by
  by_contra hn
  obtain ⟨n, hn⟩ := Option.ne_none_iff_exists'.1 hn
  obtain ⟨c, t, heq, hc⟩ := head_numeral hn
  have hhead : ∀ m ∈ marks, ∀ c ∈ (m ++ ['\'']).head?, isDigit c = false ∧ c ≠ '.' := by decide
  have hmem : c ∈ (m ++ ['\'']).head? := by
    have hsome := congrArg List.head? heq
    cases m <;> simpa using hsome
  obtain ⟨hdigit, hpoint⟩ := hhead m hm c hmem
  rcases hc with hc | hc
  · rw [hdigit] at hc
    cases hc
  · exact hpoint hc.1

theorem takesLongest (l : Literal) : TakesLongest l.token.pattern := by
  cases l with
  | string => exact string.takesLongest_enclosed
  | constant =>
    have hlong : TakesLongest (.alt numeral characterConstant) := by
      refine takesLongest_numeral.alt constant.takesLongest_enclosed ?_
      intro u hu v n hn
      obtain ⟨m, hm, b, -, rfl⟩ := mem_language_enclosed.1 hu
      rw [List.append_assoc, List.cons_append] at hn
      cases (width?_numeral_mark hm).symm.trans hn
    intro u hu v
    show ∃ n, Lexical.constant.width? (u ++ v) = some n ∧ u.length ≤ n
    rw [width?_constant, ← width?_alt]
    refine hlong u ?_ v
    rw [numeral, mem_language_alt, mem_language_alt, or_assoc]
    exact (mem_language_alt.1 hu).imp_right mem_language_alt.1

lemma consuming (l : Literal) : Consuming l.token.pattern := by
  cases l <;> exact consuming_of_takesSome rfl

/-- Behind an opening quote a literal goes on to the first quote that is not escaped. -/
theorem width?_mark (l : Literal) (hm : m ∈ marks) : l.token.width? (m ++ l.quote :: r) = some n ↔
    ∃ b rest, r = b ++ l.quote :: rest ∧ l.least ≤ b.length ∧ UpToQuote l.quote b ∧
      n = (m ++ l.quote :: (b ++ [l.quote])).length := by
  have hpattern : l.token.width? (m ++ l.quote :: r) =
      (enclosed l.quote l.body).width? (m ++ l.quote :: r) := by
    cases l with
    | string => rfl
    | constant =>
      show Lexical.constant.width? (m ++ '\'' :: r) = _
      rw [width?_constant, width?_numeral_mark hm, Option.none_or]
      rfl
  rw [hpattern, width?_enclosed_mark l.isWordPart_quote (fun _ hb => l.width?_body_append hb) hm]
  constructor
  · rintro ⟨b, hb, rest, hr, hn⟩
    obtain ⟨hleast, hopen⟩ := l.mem_language_body.1 hb
    exact ⟨b, rest, hr, hleast, hopen, hn⟩
  · rintro ⟨b, rest, hr, hleast, hopen, hn⟩
    exact ⟨b, l.mem_language_body.2 ⟨hleast, hopen⟩, rest, hr, hn⟩

/-- An opening quote is refused if none closes it, or if one does before enough is in between. -/
theorem width?_mark_eq_none (l : Literal) (hm : m ∈ marks) :
    l.token.width? (m ++ l.quote :: r) = none ↔
      NeverCloses l.quote r ∨ 0 < l.least ∧ r.head? = some l.quote := by
  have hleast : l.least ≤ 1 := by cases l <;> decide
  rw [← not_iff_not, ← ne_eq, Option.ne_none_iff_exists']
  constructor
  · rintro ⟨n, hn⟩
    obtain ⟨body, rest, rfl, hlength, hopen, -⟩ := (l.width?_mark hm).1 hn
    rintro (hnever | ⟨hpos, hhead⟩)
    · exact neverCloses_iff.1 hnever body rest rfl hopen
    · cases body with
      | nil => exact absurd hlength (Nat.not_le.2 hpos)
      | cons c body =>
        have hne := (hopen.inside [] c body rfl (by decide)).1
        exact hne (Option.some.inj hhead)
  · intro h
    rw [not_or, neverCloses_iff] at h
    push Not at h
    obtain ⟨⟨body, rest, rfl, hopen⟩, hhead⟩ := h
    refine ⟨_, (l.width?_mark hm).2 ⟨body, rest, rfl, ?_, hopen, rfl⟩⟩
    cases body with
    | nil => exact Nat.not_lt.1 fun hpos => hhead hpos rfl
    | cons c body => exact hleast.trans (Nat.le_add_left 1 _)

end Literal
end CTree.Lexical

namespace CTree.Parse
open CTree.Lexical Pattern

theorem parseWith_token_eq_error_iff {t : Token} {s : List Char} :
    (∃ fault, parseWith (.token t) s = .error fault) ↔ t.width? s = none := by
  rw [parseWith, readSymbol, readToken]
  cases h : t.width? s <;> simp [Text.Cursor.start, h]

/-- The rule of a literal takes the longest word of its language, and matches where there is one.
Behind an opening quote that word ends at the first quote that is not escaped. The rule fails if
there is none in front of the first line end that is not escaped, or nothing between the quotes of
a character. -/
theorem literal_is_longest_word (l : Literal) :
    (∀ s node, parseWith (.token l.token) s = .ok node ↔
      ∃ u, LongestAt l.token.pattern.language s u ∧ node = .leaf l.token 0 u) ∧
    (∀ s, (∃ node, parseWith (.token l.token) s = .ok node) ↔
      ∃ u ∈ l.token.pattern.language, u ≠ [] ∧ u <+: s) ∧
    ∀ m ∈ marks, ∀ r,
      (∀ node, parseWith (.token l.token) (m ++ l.quote :: r) = .ok node ↔
        ∃ body rest, r = body ++ l.quote :: rest ∧ l.least ≤ body.length ∧
          UpToQuote l.quote body ∧
          node = .leaf l.token 0 (m ++ l.quote :: (body ++ [l.quote]))) ∧
      ((∃ fault, parseWith (.token l.token) (m ++ l.quote :: r) = .error fault) ↔
        NeverCloses l.quote r ∨ 0 < l.least ∧ r.head? = some l.quote) := by
  have htake {s u : List Char} (hu : u <+: s) : s.take u.length = u :=
    (List.prefix_iff_eq_take.1 hu).symm
  have hmatch (s : List Char) (node : Node) : parseWith (.token l.token) s = .ok node ↔
      ∃ u, LongestAt l.token.pattern.language s u ∧ node = .leaf l.token 0 u := by
    rw [parseWith_token_eq_ok_iff]
    constructor
    · rintro ⟨n, hn, rfl⟩
      obtain ⟨u, hu, rfl⟩ := l.takesLongest.width?_eq_some_iff.1 hn
      exact ⟨u, hu, by rw [htake hu.begins]⟩
    · rintro ⟨u, hu, rfl⟩
      exact ⟨u.length, l.takesLongest.width?_eq_some_iff.2 ⟨u, hu, rfl⟩, by rw [htake hu.begins]⟩
  refine ⟨hmatch, fun s => ⟨?_, ?_⟩, fun m hm r => ⟨fun node => ?_, ?_⟩⟩
  · rintro ⟨node, hnode⟩
    obtain ⟨u, hu, -⟩ := (hmatch s node).1 hnode
    exact ⟨u, hu.mem, l.takesLongest.ne_nil l.consuming hu.mem, hu.begins⟩
  · rintro ⟨u, hu, -, hbegins⟩
    have hsome := l.takesLongest.width?_ne_none_iff.2 ⟨u, hu, hbegins⟩
    obtain ⟨n, hn⟩ := Option.ne_none_iff_exists'.1 hsome
    exact ⟨_, parseWith_token_eq_ok_iff.2 ⟨n, hn, rfl⟩⟩
  · rw [parseWith_token_eq_ok_iff]
    constructor
    · rintro ⟨n, hn, rfl⟩
      obtain ⟨body, rest, rfl, hleast, hopen, rfl⟩ := (l.width?_mark hm).1 hn
      exact ⟨body, rest, rfl, hleast, hopen, by rw [htake]; simp⟩
    · rintro ⟨body, rest, rfl, hleast, hopen, rfl⟩
      exact ⟨_, (l.width?_mark hm).2 ⟨body, rest, rfl, hleast, hopen, rfl⟩, by rw [htake]; simp⟩
  · rw [parseWith_token_eq_error_iff, l.width?_mark_eq_none hm]

/-- A digit that is none of the base is left over, and an exponent without digits. -/
example :
    parseWith (.token .constant) "0b12".toList = .ok (.leaf .constant 0 "0b1".toList) ∧
    parseWith (.token .constant) "1.e+".toList = .ok (.leaf .constant 0 "1.".toList) :=
  ⟨rfl, rfl⟩

end CTree.Parse
