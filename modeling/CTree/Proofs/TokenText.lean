import CTree.Proofs.GapStructure
import CTree.Proofs.LiteralText

/-!
# The texts of tokens

A token is tried on characters, so what is read at a place depends on more than the
token that stands there. This dependence is small. Once a token was read, every
other token reads the same from its text whatever follows, unless one of a few
characters follows: `Token.bars` are these. And a token that takes only a part of
the text of another leaves a rest on which nearly all tokens fail: only an
identifier in front of a quote, which is the mark of a literal, and a point in
front of a digit or a point do so, and `Token.snags` are the characters left.
-/
namespace CTree.Lexical
open Pattern

namespace Token

def isWord : Token → Bool
  | keyword _ | identifier => true
  | _ => false

/-- The characters that may stand behind a token when it took only a part of another. -/
def snags : Token → Char → Bool
  | identifier, c => c = '\'' || c = '\"'
  | punctuator .dot, c => c = '.' || isDigit c
  | _, _ => false

/-- The characters in front of which the token is not read, or only as a part of another. -/
def bars : Token → Char → Bool
  | keyword _, c => isWordPart c
  | identifier, c => isWordPart c || identifier.snags c
  | punctuator p, c => p.entry.notBefore.toList.contains c || (punctuator p).snags c
  | _, _ => false

/-- The characters that a token may begin with. -/
def mayBegin : Token → Char → Bool
  | endOfInput, _ => false
  | keyword _, c | identifier, c => isWordStart c
  | constant, c => isDigit c || c = '.' || c = '\'' || isWordStart c
  | stringLiteral, c => c = '\"' || isWordStart c
  | punctuator p, c => p.text.toList.head? = some c

end Token

/-! ## Words -/

lemma isWordPart_of_isWordStart {c : Char} (h : isWordStart c = true) : isWordPart c = true := by
  simp only [isWordStart, isWordPart, Bool.or_eq_true] at h ⊢
  rcases h with h | h
  · exact .inl (.inl h)
  · exact .inr h

/-- A spelling of a reserved word. -/
lemma spelling_facts (k : Keyword) : ∀ w ∈ k.spellings,
    (∀ c ∈ w.toList, isWordPart c = true) ∧ (∀ c ∈ w.toList.head?, isWordStart c = true) ∧
      w.toList ≠ [] := by
  have hall : ∀ k ∈ Keyword.all, ∀ w ∈ k.spellings,
      (∀ c ∈ w.toList, isWordPart c = true) ∧ (∀ c ∈ w.toList.head?, isWordStart c = true) ∧
        w.toList ≠ [] := by decide +kernel
  exact hall k k.mem_all

lemma within_keyword (k : Keyword) : k.pattern.Within isWordPart := by
  refine ⟨Within.firstOf ?_, fun c h => h⟩
  intro p hp
  obtain ⟨w, hw, rfl⟩ := List.mem_map.1 hp
  exact within_text (spelling_facts k w hw).1

/-- What follows a word is not seen. -/
theorem within_of_isWord {t : Token} (h : t.isWord = true) : t.pattern.Within isWordPart := by
  cases t with
  | keyword k => exact within_keyword k
  | identifier =>
    refine ⟨Within.firstOf ?_, fun c h => isWordPart_of_isWordStart h,
      consuming_of_takesSome rfl, fun c h => h⟩
    intro p hp
    obtain ⟨k, -, rfl⟩ := List.mem_map.1 hp
    exact within_keyword k
  | endOfInput | constant | stringLiteral | punctuator _ => simp [Token.isWord] at h

lemma exists_of_width?_firstOf {ps : List Pattern} {s : List Char} {n : Nat}
    (h : (Pattern.firstOf ps).width? s = some n) : ∃ p ∈ ps, p.width? s = some n := by
  induction ps with
  | nil =>
    rw [Pattern.firstOf, width?_absent, width?_nothing] at h
    cases h
  | cons p ps ih =>
    cases ps with
    | nil => exact ⟨p, List.mem_cons_self, h⟩
    | cons q ps =>
      rcases width?_alt_eq_some.1 h with h | ⟨-, h⟩
      · exact ⟨p, List.mem_cons_self, h⟩
      · obtain ⟨r, hr, hn⟩ := ih h
        exact ⟨r, List.mem_cons_of_mem _ hr, hn⟩

/-- A word is taken as a whole. -/
theorem width?_of_isWord {t : Token} {s : List Char} {n : Nat} (h : t.isWord = true)
    (hn : t.width? s = some n) :
    n = (s.takeWhile isWordPart).length ∧ ∃ c r, s = c :: r ∧ isWordStart c = true := by
  cases t with
  | keyword k =>
    obtain ⟨a, b, ha, hb, rfl⟩ := width?_seq_eq_some.1 hn
    obtain ⟨hend, rfl⟩ := width?_absent_eq_some.1 hb
    obtain ⟨p, hp, ha⟩ := exists_of_width?_firstOf ha
    obtain ⟨w, hw, rfl⟩ := List.mem_map.1 hp
    obtain ⟨hpart, hstart, hne⟩ := spelling_facts k w hw
    obtain ⟨⟨r, rfl⟩, rfl⟩ := width?_word_eq_some.1 ha
    rw [List.drop_left] at hend
    constructor
    · rw [List.takeWhile_append_of_pos hpart]
      cases r with
      | nil => simp
      | cons c r =>
        have hc : isWordPart c = false := by simpa using hend
        simp [hc]
    · cases hw : w.toList with
      | nil => exact absurd hw hne
      | cons c u => exact ⟨c, u ++ r, rfl, hstart c (by rw [hw]; rfl)⟩
  | identifier =>
    obtain ⟨a, b, ha, hb, rfl⟩ := width?_seq_eq_some.1 hn
    obtain ⟨-, rfl⟩ := width?_absent_eq_some.1 ha
    obtain ⟨c, d, hc, hd, rfl⟩ := width?_seq_eq_some.1 hb
    obtain ⟨e, r, rfl, he, rfl⟩ := width?_one_eq_some.1 hc
    refine ⟨?_, e, r, rfl, he⟩
    have hpart := isWordPart_of_isWordStart he
    change (Pattern.many (.one isWordPart)).width? r = some d at hd
    obtain rfl : (r.takeWhile isWordPart).length = d := by simpa using hd
    simp [hpart, Nat.add_comm]
  | endOfInput | constant | stringLiteral | punctuator _ => simp [Token.isWord] at h

lemma width?_keyword_mark {m : List Char} (hm : m ∈ marks) (k : Keyword) :
    (Token.keyword k).width? m = none := by
  have hall : ∀ m ∈ marks, ∀ k ∈ Keyword.all, (Token.keyword k).width? m = none := by
    decide +kernel
  exact hall m hm k k.mem_all

/-! ## Punctuators -/

theorem width?_punctuator_eq_some {p : Punctuator} {s : List Char} {n : Nat} :
    (Token.punctuator p).width? s = some n ↔
      p.text.toList <+: s ∧ n = p.text.toList.length ∧
        ∀ c ∈ (s.drop n).head?, c ∉ p.entry.notBefore.toList := by
  have hlook : ∀ r : List Char, (Pattern.oneOf p.entry.notBefore).width? r = none ↔
      ∀ c ∈ r.head?, c ∉ p.entry.notBefore.toList := by
    intro r
    cases r with
    | nil => simp [Pattern.oneOf]
    | cons c r => simp [Pattern.oneOf]
  constructor
  · intro h
    obtain ⟨a, b, ha, hb, rfl⟩ := width?_seq_eq_some.1 h
    obtain ⟨hpre, rfl⟩ := width?_word_eq_some.1 ha
    obtain ⟨hnot, rfl⟩ := width?_absent_eq_some.1 hb
    exact ⟨hpre, rfl, (hlook _).1 hnot⟩
  · rintro ⟨hpre, rfl, hnot⟩
    exact width?_seq_eq_some.2 ⟨_, 0, width?_word_eq_some.2 ⟨hpre, rfl⟩,
      width?_absent_eq_some.2 ⟨(hlook _).2 hnot, rfl⟩, rfl⟩

theorem eq_text_of_width?_punctuator {p : Punctuator} {u v : List Char}
    (h : (Token.punctuator p).width? (u ++ v) = some u.length) : u = p.text.toList := by
  obtain ⟨hpre, hlength, -⟩ := width?_punctuator_eq_some.1 h
  exact ((List.prefix_of_prefix_length_le hpre (List.prefix_append u v)
    hlength.ge).eq_of_length hlength.symm).symm

/-- No punctuator begins like another token, but for the point. -/
lemma head_punctuator (p : Punctuator) : ∃ c r, p.text.toList = c :: r ∧ isWordPart c = false ∧
    isSolid c = true ∧ c ∉ ['\'', '\"', '\\', '#'] ∧
    (c = '.' → p = .dot ∨ p = .ellipsis) := by
  have hall : ∀ p ∈ Punctuator.all, ∀ c ∈ p.text.toList.head?, isWordPart c = false ∧
      isSolid c = true ∧ c ∉ ['\'', '\"', '\\', '#'] ∧ (c = '.' → p = .dot ∨ p = .ellipsis) := by
    decide +kernel
  have hne : ∀ p ∈ Punctuator.all, p.text.toList ≠ [] := by decide +kernel
  cases hp : p.text.toList with
  | nil => exact absurd hp (hne p p.mem_all)
  | cons c r => exact ⟨c, r, rfl, hall p p.mem_all c (by rw [hp]; rfl)⟩

/-! ## First characters -/

lemma head_enclosed {quote : Char} {body : Pattern} {s : List Char} {n : Nat}
    (hq : isWordPart quote = false) (h : (enclosed quote body).width? s = some n) :
    ∃ c r, s = c :: r ∧ (c = quote ∨ isWordStart c = true) := by
  obtain ⟨m, hm, r, b, rfl, -⟩ := (width?_enclosed_eq_some hq).1 h
  have hstart : ∀ m ∈ marks, ∀ c ∈ m.head?, isWordStart c = true := by decide
  cases m with
  | nil => exact ⟨quote, r, rfl, .inl rfl⟩
  | cons c m => exact ⟨c, m ++ quote :: r, rfl, .inr (hstart _ hm c rfl)⟩

theorem head_of_width? {t : Token} {s : List Char} {n : Nat} (ht : t ≠ .endOfInput)
    (h : t.width? s = some n) : ∃ c r, s = c :: r ∧ t.mayBegin c = true := by
  cases t with
  | endOfInput => exact absurd rfl ht
  | keyword k => exact (width?_of_isWord rfl h).2
  | identifier => exact (width?_of_isWord rfl h).2
  | constant =>
    change constant.width? s = some n at h
    rw [width?_constant] at h
    cases hnum : numeral.width? s with
    | some a =>
      obtain ⟨c, r, rfl, hc⟩ := head_numeral hnum
      refine ⟨c, r, rfl, ?_⟩
      rcases hc with hc | ⟨rfl, -⟩ <;> simp [Token.mayBegin, *]
    | none =>
      rw [hnum, Option.none_or, characterConstant_eq] at h
      obtain ⟨c, r, rfl, hc⟩ := head_enclosed rfl h
      refine ⟨c, r, rfl, ?_⟩
      rcases hc with rfl | hc <;> simp [Token.mayBegin, *]
  | stringLiteral =>
    change stringLiteral.width? s = some n at h
    rw [stringLiteral_eq] at h
    obtain ⟨c, r, rfl, hc⟩ := head_enclosed rfl h
    refine ⟨c, r, rfl, ?_⟩
    rcases hc with rfl | hc <;> simp [Token.mayBegin, *]
  | punctuator p =>
    obtain ⟨hpre, -, -⟩ := width?_punctuator_eq_some.1 h
    obtain ⟨c, r, hp, -⟩ := head_punctuator p
    obtain ⟨u, rfl⟩ := hpre
    rw [hp]
    exact ⟨c, r ++ u, rfl, by simp [Token.mayBegin, hp]⟩

theorem width?_eq_none_of_mayBegin {t : Token} {c : Char} (ht : t ≠ .endOfInput)
    (hc : t.mayBegin c = false) (s : List Char) : t.width? (c :: s) = none := by
  cases h : t.width? (c :: s) with
  | none => rfl
  | some n =>
    obtain ⟨d, r, heq, hd⟩ := head_of_width? ht h
    obtain ⟨rfl, -⟩ := List.cons.inj heq
    rw [hd] at hc
    cases hc

lemma width?_constant_point {s : List Char} (h : Outside isDigit s) :
    Token.constant.width? ('.' :: s) = none := by
  have hnum : numeral.width? ('.' :: s) = none := by
    cases hn : numeral.width? ('.' :: s) with
    | none => rfl
    | some n =>
      obtain ⟨d, r, rfl, hd⟩ := isDigit_of_width?_numeral_point hn
      rw [outside_cons, hd] at h
      cases h
  have hchar : characterConstant.width? ('.' :: s) = none := by
    cases hn : characterConstant.width? ('.' :: s) with
    | none => rfl
    | some n =>
      rw [characterConstant_eq] at hn
      obtain ⟨c, r, heq, hc⟩ := head_enclosed rfl hn
      obtain ⟨rfl, -⟩ := List.cons.inj heq
      rcases hc with hc | hc <;> exact absurd hc (by decide)
  show constant.width? ('.' :: s) = none
  rw [width?_constant, hnum, hchar]
  rfl

/-! ## How the text of a token looks -/

inductive Shape : Token → List Char → Prop
  | word {t c r} : t.isWord = true → isWordStart c = true → (∀ d ∈ r, isWordPart d = true) →
      (t ≠ .identifier → c :: r ∉ marks) → Shape t (c :: r)
  | digit {c r} : isDigit c = true → Shape .constant (c :: r)
  | point {d r} : isDigit d = true → Shape .constant ('.' :: d :: r)
  | character {m b} : m ∈ marks → Shape .constant (m ++ '\'' :: b)
  | string {m b} : m ∈ marks → Shape .stringLiteral (m ++ '\"' :: b)
  | punctuator {p} : Shape (.punctuator p) p.text.toList

/-- The parts of a text between quotes that is read as a whole. -/
lemma enclosed_parts {quote : Char} {body : Pattern} {u v : List Char}
    (hq : isWordPart quote = false)
    (h : (enclosed quote body).width? (u ++ v) = some u.length) :
    ∃ m ∈ marks, ∃ b, u = m ++ quote :: (b ++ [quote]) ∧
      body.width? (b ++ quote :: v) = some b.length := by
  obtain ⟨m, hm, r, k, hs, hbody, ⟨e, he⟩, hlen⟩ := (width?_enclosed_eq_some hq).1 h
  have hk := width?_le_length hbody
  have hr : r = r.take k ++ quote :: e := by
    calc r = r.take k ++ r.drop k := (List.take_append_drop k r).symm
      _ = r.take k ++ quote :: e := by rw [← he]; rfl
  have htake : (r.take k).length = k := by rw [List.length_take]; omega
  have hsplit : u ++ v = m ++ quote :: (r.take k ++ [quote]) ++ e := by
    rw [hs]
    conv_lhs => rw [hr]
    simp
  obtain ⟨rfl, rfl⟩ := List.append_inj hsplit (by simp [hlen, htake, Nat.add_comm])
  exact ⟨m, hm, r.take k, rfl, by rw [← hr, htake]; exact hbody⟩

lemma outside_of_takeWhile {K : Char → Bool} {u v : List Char} (hu : ∀ c ∈ u, K c = true)
    (h : u.length = ((u ++ v).takeWhile K).length) : Outside K v := by
  rw [List.takeWhile_append_of_pos hu, List.length_append] at h
  have hv : v.takeWhile K = [] := List.eq_nil_of_length_eq_zero (by omega)
  cases v with
  | nil => exact outside_nil K
  | cons c v =>
    rw [outside_cons]
    by_contra hc
    rw [List.takeWhile_cons, if_pos (by simpa using hc)] at hv
    cases hv

/-- A word that is read as a whole, and what follows it. -/
lemma word_parts {t : Token} {u v : List Char} (ht : t.isWord = true)
    (h : t.width? (u ++ v) = some u.length) :
    Shape t u ∧ (∀ c ∈ u, isWordPart c = true) ∧ Outside isWordPart v := by
  obtain ⟨hlen, c, r, hs, hc⟩ := width?_of_isWord ht h
  have hsplit : u ++ v = (u ++ v).takeWhile isWordPart ++ (u ++ v).dropWhile isWordPart :=
    (List.takeWhile_append_dropWhile).symm
  have htake : u = (u ++ v).takeWhile isWordPart := List.append_inj_left hsplit hlen
  have hpart : ∀ d ∈ u, isWordPart d = true := by
    intro d hd
    rw [htake] at hd
    exact List.mem_takeWhile_imp hd
  have hout := outside_of_takeWhile hpart hlen
  refine ⟨?_, hpart, hout⟩
  cases u with
  | nil =>
    rw [List.nil_append] at hs
    rw [hs, outside_cons, isWordPart_of_isWordStart hc] at hout
    cases hout
  | cons d u =>
    obtain ⟨rfl, -⟩ := List.cons.inj hs
    refine .word ht hc (fun e he => hpart e (List.mem_cons_of_mem _ he)) ?_
    intro hne hmark
    cases t with
    | keyword k =>
      have hsee : (Token.keyword k).width? (d :: u ++ v) = (Token.keyword k).width? (d :: u) :=
        (within_keyword k).width?_append hout _
      rw [hsee, width?_keyword_mark hmark] at h
      cases h
    | identifier => exact hne rfl
    | endOfInput | constant | stringLiteral | punctuator _ => simp [Token.isWord] at ht

theorem shape_of_width? {t : Token} {u v : List Char} (ht : t ≠ .endOfInput)
    (h : t.width? (u ++ v) = some u.length) : Shape t u := by
  cases t with
  | endOfInput => exact absurd rfl ht
  | keyword k => exact (word_parts rfl h).1
  | identifier => exact (word_parts rfl h).1
  | constant =>
    change constant.width? (u ++ v) = some u.length at h
    rw [width?_constant] at h
    cases hnum : numeral.width? (u ++ v) with
    | some a =>
      rw [hnum, Option.some_or] at h
      rw [h] at hnum
      have hcut := cuts_numeral.keep hnum (Nat.le_refl _)
      obtain ⟨c, r, rfl, hc | ⟨rfl, d, r', rfl, hd⟩⟩ := head_numeral hcut
      · exact .digit hc
      · exact .point hd
    | none =>
      rw [hnum, Option.none_or, characterConstant_eq] at h
      obtain ⟨m, hm, b, rfl, -⟩ := enclosed_parts rfl h
      exact .character hm
  | stringLiteral =>
    change stringLiteral.width? (u ++ v) = some u.length at h
    rw [stringLiteral_eq] at h
    obtain ⟨m, hm, b, rfl, -⟩ := enclosed_parts rfl h
    exact .string hm
  | punctuator p =>
    rw [eq_text_of_width?_punctuator h]
    exact .punctuator

/-! ## What other tokens read -/

lemma isWordPart_of_isDigit {c : Char} (h : isDigit c = true) : isWordPart c = true := by
  simp [isWordPart, h]

lemma isWordStart_of_isDigit {c : Char} (h : isDigit c = true) : isWordStart c = false := by
  by_contra hstart
  simp only [isWordStart, isLetter, isDigit, Bool.not_eq_false, Bool.or_eq_true, Bool.and_eq_true,
    decide_eq_true_eq] at h hstart
  rcases hstart with (⟨ha, -⟩ | ⟨hA, -⟩) | rfl
  · exact absurd (Char.le_trans ha h.2) (by decide)
  · exact absurd (Char.le_trans hA h.2) (by decide)
  · exact absurd h.2 (by decide)

lemma mayBegin_punctuator {p : Punctuator} {c : Char} (h : (Token.punctuator p).mayBegin c = true) :
    isWordPart c = false ∧ isSolid c = true ∧ c ∉ ['\'', '\"', '\\', '#'] ∧
      (c = '.' → p = .dot ∨ p = .ellipsis) := by
  obtain ⟨d, r, hp, hd⟩ := head_punctuator p
  obtain rfl : d = c := by simpa [Token.mayBegin, hp] using h
  exact hd

/-- What begins with a mark that begins neither words nor literals is a punctuator. -/
lemma exists_punctuator {t : Token} {c : Char} (h : t.mayBegin c = true)
    (hpart : isWordPart c = false) (hc : c ∉ ['.', '\'', '\"']) :
    ∃ p, t = .punctuator p ∧ p.text.toList.head? = some c := by
  have hstart : isWordStart c = false := by
    by_contra hword
    rw [isWordPart_of_isWordStart (by simpa using hword)] at hpart
    cases hpart
  have hdigit : isDigit c = false := by
    by_contra hdigit
    rw [isWordPart_of_isDigit (by simpa using hdigit)] at hpart
    cases hpart
  simp only [List.mem_cons, List.not_mem_nil, or_false, not_or] at hc
  cases t with
  | punctuator p => exact ⟨p, rfl, by simpa [Token.mayBegin] using h⟩
  | endOfInput => cases h
  | keyword _ | identifier => simp [Token.mayBegin, hstart] at h
  | constant | stringLiteral => simp [Token.mayBegin, hstart, hdigit, hc] at h

/-- A literal of the one kind is none of the other. -/
lemma width?_enclosed_other {quote other : Char} {body : Pattern} {m b : List Char}
    (hm : m ∈ marks) (hquote : isWordPart quote = false) (hother : isWordPart other = false)
    (hne : quote ≠ other) : (enclosed other body).width? (m ++ quote :: b) = none := by
  cases h : (enclosed other body).width? (m ++ quote :: b) with
  | none => rfl
  | some n =>
    obtain ⟨m', hm', r, k, hs, -⟩ := (width?_enclosed_eq_some hother).1 h
    have hsame : m = m' := by
      rw [← takeWhile_mark (s := b) hm hquote, hs, takeWhile_mark hm' hother]
    subst hsame
    exact absurd (List.cons.inj (List.append_cancel_left hs)).1 hne

lemma width?_numeral_eq_none {c : Char} (hdigit : isDigit c = false) (hpoint : c ≠ '.')
    (s : List Char) : numeral.width? (c :: s) = none := by
  cases h : numeral.width? (c :: s) with
  | none => rfl
  | some n =>
    obtain ⟨d, r, hs, hd⟩ := head_numeral h
    obtain ⟨rfl, -⟩ := List.cons.inj hs
    rcases hd with hd | ⟨hd, -⟩
    · rw [hd] at hdigit
      cases hdigit
    · exact absurd hd hpoint

/-- No punctuator begins with a character of a word or a quote. -/
lemma mayBegin_punctuator_eq_false {c : Char} (h : isWordPart c = true ∨ c ∈ ['\'', '\"'])
    (p : Punctuator) : (Token.punctuator p).mayBegin c = false := by
  by_contra hbegin
  obtain ⟨hpart, -, hnot, -⟩ := mayBegin_punctuator (by simpa using hbegin)
  rcases h with h | h
  · rw [h] at hpart
    cases hpart
  · simp only [List.mem_cons, List.not_mem_nil, or_false] at h hnot
    exact hnot (h.imp_right .inl)

/-- The head of a literal between quotes begins no numeral and is no punctuator. -/
lemma head_of_mem_marks {m b : List Char} {quote : Char} (hm : m ∈ marks)
    (hq : quote = '\'' ∨ quote = '\"') : ∃ c r, m ++ quote :: b = c :: r ∧
      isDigit c = false ∧ c ≠ '.' ∧ ∀ p, (Token.punctuator p).mayBegin c = false := by
  have hmark : ∀ m ∈ marks, ∀ c ∈ m.head?, isDigit c = false ∧ c ≠ '.' := by decide
  cases m with
  | nil =>
    refine ⟨quote, b, rfl, ?_⟩
    rcases hq with rfl | rfl
    · exact ⟨by decide, by decide, mayBegin_punctuator_eq_false (.inr (by decide))⟩
    · exact ⟨by decide, by decide, mayBegin_punctuator_eq_false (.inr (by decide))⟩
  | cons c m =>
    obtain ⟨hdigit, hpoint⟩ := hmark _ hm c rfl
    exact ⟨c, m ++ quote :: b, rfl, hdigit, hpoint,
      mayBegin_punctuator_eq_false (.inl (isWordPart_of_mem_marks hm c List.mem_cons_self))⟩

/-- A word is no literal, unless it is a mark in front of a quote. -/
lemma width?_enclosed_word {t : Token} {c quote : Char} {r v : List Char} {body : Pattern}
    (hq : quote = '\'' ∨ quote = '\"') (hr : ∀ d ∈ c :: r, isWordPart d = true)
    (hmark : t ≠ .identifier → c :: r ∉ marks) (hv : Outside isWordPart v)
    (hsnag : Outside t.snags v) : (enclosed quote body).width? (c :: r ++ v) = none := by
  have hword : isWordPart quote = false := by rcases hq with rfl | rfl <;> decide
  cases h : (enclosed quote body).width? (c :: r ++ v) with
  | none => rfl
  | some n =>
    obtain ⟨m, hm, s, k, hs, -⟩ := (width?_enclosed_eq_some hword).1 h
    have hv' : v.takeWhile isWordPart = [] := by
      cases v with
      | nil => rfl
      | cons d v => rw [List.takeWhile_cons, outside_cons.1 hv]; rfl
    have hsame : c :: r = m := by
      rw [← takeWhile_mark (s := s) hm hword, ← hs, List.takeWhile_append_of_pos hr, hv',
        List.append_nil]
    subst hsame
    obtain rfl := List.append_cancel_left hs
    by_cases ht : t = .identifier
    · subst ht
      rw [outside_cons] at hsnag
      rcases hq with rfl | rfl <;> cases hsnag
    · exact absurd hm (hmark ht)

/-- The character by which a longer punctuator goes on is barred behind the shorter one. -/
lemma bars_of_prefix {p longer : Punctuator} (h : p.text.toList <+: longer.text.toList)
    (hne : longer ≠ p) :
    ∃ d e, longer.text.toList = p.text.toList ++ d :: e ∧ (Token.punctuator p).bars d = true := by
  have hall : ∀ p ∈ Punctuator.all, ∀ longer ∈ Punctuator.all,
      p.text.toList.isPrefixOf longer.text.toList = true → longer ≠ p →
      ((longer.text.toList.drop p.text.toList.length).head?.any (Token.punctuator p).bars) = true := by
    decide +kernel
  have hbar := hall p p.mem_all longer longer.mem_all (List.isPrefixOf_iff_prefix.2 h) hne
  obtain ⟨u, hu⟩ := h
  rw [← hu, List.drop_left] at hbar
  cases u with
  | nil => cases hbar
  | cons d e => exact ⟨d, e, hu.symm, by simpa using hbar⟩

lemma width?_punctuator_append {p other : Punctuator} {v : List Char} (hne : other ≠ p)
    (hv : Outside (Token.punctuator p).bars v) :
    (Token.punctuator other).width? (p.text.toList ++ v) =
      (Token.punctuator other).width? p.text.toList := by
  rcases Nat.lt_or_ge other.text.toList.length p.text.toList.length with hlt | hge
  · -- The character behind the shorter one belongs to the longer one.
    have hhead : ((p.text.toList ++ v).drop other.text.toList.length).head? =
        (p.text.toList.drop other.text.toList.length).head? := by
      rw [List.drop_append_of_le_length hlt.le]
      cases h : p.text.toList.drop other.text.toList.length with
      | nil => exact absurd (List.drop_eq_nil_iff.1 h) (by omega)
      | cons c r => rfl
    have hpre : other.text.toList <+: p.text.toList ++ v ↔ other.text.toList <+: p.text.toList :=
      ⟨fun h => List.prefix_of_prefix_length_le h (List.prefix_append _ v) hlt.le,
        fun h => h.trans (List.prefix_append _ v)⟩
    have hiff : ∀ n, (Token.punctuator other).width? (p.text.toList ++ v) = some n ↔
        (Token.punctuator other).width? p.text.toList = some n := by
      intro n
      rw [width?_punctuator_eq_some, width?_punctuator_eq_some, hpre]
      constructor <;> (rintro ⟨h, rfl, hnot⟩; refine ⟨h, rfl, ?_⟩)
      · rwa [hhead] at hnot
      · rwa [hhead]
    exact Option.ext fun n => hiff n
  · have hnone : ∀ v, Outside (Token.punctuator p).bars v →
        (Token.punctuator other).width? (p.text.toList ++ v) = none := by
      intro v hv
      cases h : (Token.punctuator other).width? (p.text.toList ++ v) with
      | none => rfl
      | some n =>
        obtain ⟨hpre, -, -⟩ := width?_punctuator_eq_some.1 h
        obtain ⟨d, e, heq, hd⟩ := bars_of_prefix
          (List.prefix_of_prefix_length_le (List.prefix_append _ v) hpre hge) hne
        obtain ⟨u, hu⟩ := hpre
        rw [heq, List.append_assoc] at hu
        rw [← List.append_cancel_left hu, List.cons_append, outside_cons, hd] at hv
        cases hv
    have hnil := hnone [] (outside_nil _)
    rw [List.append_nil] at hnil
    rw [hnone v hv, hnil]

/-- What the other token reads from the text of a token is the same whatever follows, unless
a barred character follows, and it is nothing, the whole text, or a part in front of a snag. -/
def Foreseen (t other : Token) (u : List Char) : Prop :=
  ∃ result, (∀ v, Outside t.bars v → other.width? (u ++ v) = result) ∧
    ∀ n, result = some n → n = u.length ∨ ∃ c r, u.drop n = c :: r ∧ other.snags c = true

lemma Foreseen.of_fails {t other : Token} {u : List Char}
    (h : ∀ v, Outside t.bars v → other.width? (u ++ v) = none) : Foreseen t other u :=
  ⟨none, h, fun n hn => by cases hn⟩

lemma Foreseen.of_head {t other : Token} {c : Char} {r : List Char} (ho : other ≠ .endOfInput)
    (hc : other.mayBegin c = false) : Foreseen t other (c :: r) :=
  .of_fails fun v _ => width?_eq_none_of_mayBegin ho hc (r ++ v)

/-- Reserved words and identifiers stop at a quote. -/
lemma width?_keyword_quote {m : List Char} {quote : Char} {k : Keyword} (hm : m ∈ marks)
    (hq : isWordPart quote = false) (b v : List Char) :
    (Token.keyword k).width? (m ++ quote :: b ++ v) = none := by
  rw [List.append_assoc, List.cons_append]
  exact ((within_keyword k).width?_append (outside_cons.2 hq) m).trans (width?_keyword_mark hm k)

lemma foreseen_identifier_quote {t : Token} {m : List Char} {quote : Char} (hm : m ∈ marks)
    (hq : quote = '\'' ∨ quote = '\"') (b : List Char) :
    Foreseen t .identifier (m ++ quote :: b) := by
  have hword : isWordPart quote = false := by rcases hq with rfl | rfl <;> rfl
  refine ⟨Token.identifier.width? m, fun v _ => ?_, fun n hn => .inr ⟨quote, b, ?_, ?_⟩⟩
  · rw [List.append_assoc, List.cons_append]
    exact (within_of_isWord (t := .identifier) rfl).width?_append (outside_cons.2 hword) m
  · rw [(width?_of_isWord rfl hn).1, List.takeWhile_eq_self_iff.2 (isWordPart_of_mem_marks hm),
      List.drop_left]
  · rcases hq with rfl | rfl <;> rfl

/-- A point is the only punctuator that takes a part of another one. -/
lemma snags_of_width?_punctuator {p other : Punctuator} {n : Nat} (hne : other ≠ p)
    (h : (Token.punctuator other).width? p.text.toList = some n) :
    n = p.text.toList.length ∨
      ∃ c r, p.text.toList.drop n = c :: r ∧ (Token.punctuator other).snags c = true := by
  have hall : ∀ p ∈ Punctuator.all, ∀ other ∈ Punctuator.all, other ≠ p →
      ((Token.punctuator other).width? p.text.toList).all (fun n => n = p.text.toList.length ||
        (p.text.toList.drop n).head?.any (Token.punctuator other).snags) = true := by
    decide +kernel
  have hpart := hall p p.mem_all other other.mem_all hne
  rw [h, Option.all_some, Bool.or_eq_true, decide_eq_true_eq] at hpart
  refine hpart.imp_right fun hsnag => ?_
  cases hd : p.text.toList.drop n with
  | nil =>
    rw [hd] at hsnag
    cases hsnag
  | cons c r => exact ⟨c, r, rfl, by simpa [hd] using hsnag⟩

section Foreseen
variable {other : Token} (ho : other ≠ .endOfInput)
include ho

lemma foreseen_word {t : Token} {c : Char} {r : List Char} (ht : t.isWord = true)
    (hc : isWordStart c = true) (hr : ∀ d ∈ r, isWordPart d = true)
    (hmark : t ≠ .identifier → c :: r ∉ marks) : Foreseen t other (c :: r) := by
  have hpart : ∀ d ∈ c :: r, isWordPart d = true := by
    intro d hd
    rcases List.mem_cons.1 hd with rfl | hd
    · exact isWordPart_of_isWordStart hc
    · exact hr d hd
  have hout : ∀ v, Outside t.bars v → Outside isWordPart v ∧ Outside t.snags v := by
    intro v hv
    cases t with
    | keyword k => exact ⟨hv, fun _ _ => rfl⟩
    | identifier =>
      refine ⟨fun d hd => ?_, fun d hd => ?_⟩
      · exact (Bool.or_eq_false_iff.1 (hv d hd)).1
      · exact (Bool.or_eq_false_iff.1 (hv d hd)).2
    | endOfInput | constant | stringLiteral | punctuator _ => simp [Token.isWord] at ht
  -- Another word takes the whole of this one, if anything.
  have hother : other.isWord = true → Foreseen t other (c :: r) := by
    intro hw
    refine ⟨other.width? (c :: r),
      fun v hv => (within_of_isWord hw).width?_append (hout v hv).1 _, fun n hn => .inl ?_⟩
    rw [(width?_of_isWord hw hn).1, List.takeWhile_eq_self_iff.2 hpart]
  cases other with
  | endOfInput => exact absurd rfl ho
  | keyword k => exact hother rfl
  | identifier => exact hother rfl
  | constant =>
    refine .of_fails fun v hv => ?_
    obtain ⟨hword, hsnag⟩ := hout v hv
    have hdigit : isDigit c = false := by
      by_contra h
      rw [isWordStart_of_isDigit (by simpa using h)] at hc
      cases hc
    have hpoint : c ≠ '.' := by
      rintro rfl
      cases hc
    show constant.width? (c :: (r ++ v)) = none
    rw [width?_constant, width?_numeral_eq_none hdigit hpoint, Option.none_or]
    exact width?_enclosed_word (.inl rfl) hpart hmark hword hsnag
  | stringLiteral =>
    refine .of_fails fun v hv => ?_
    obtain ⟨hword, hsnag⟩ := hout v hv
    exact width?_enclosed_word (.inr rfl) hpart hmark hword hsnag
  | punctuator p =>
    exact .of_head ho (mayBegin_punctuator_eq_false (.inl (isWordPart_of_isWordStart hc)) p)

lemma foreseen_digit (hne : other ≠ .constant) {c : Char} {r : List Char}
    (hc : isDigit c = true) : Foreseen .constant other (c :: r) := by
  have hstart := isWordStart_of_isDigit hc
  cases other with
  | endOfInput => exact absurd rfl ho
  | constant => exact absurd rfl hne
  | keyword k => exact .of_head ho hstart
  | identifier => exact .of_head ho hstart
  | stringLiteral =>
    have hquote : c ≠ '\"' := by
      rintro rfl
      cases hc
    exact .of_head ho (by simp [Token.mayBegin, hstart, hquote])
  | punctuator p =>
    exact .of_head ho (mayBegin_punctuator_eq_false (.inl (isWordPart_of_isDigit hc)) p)

lemma foreseen_point (hne : other ≠ .constant) {d : Char} {r : List Char}
    (hd : isDigit d = true) : Foreseen .constant other ('.' :: d :: r) := by
  cases other with
  | endOfInput => exact absurd rfl ho
  | constant => exact absurd rfl hne
  | keyword k => exact .of_head ho rfl
  | identifier => exact .of_head ho rfl
  | stringLiteral => exact .of_head ho rfl
  | punctuator p =>
    by_cases hp : (Token.punctuator p).mayBegin '.' = true
    · rcases (mayBegin_punctuator hp).2.2.2 rfl with rfl | rfl
      · refine ⟨some 1, fun v _ => rfl, fun n hn => .inr ⟨d, r, ?_, ?_⟩⟩
        · obtain rfl := Option.some.inj hn
          rfl
        · simp [Token.snags, hd]
      · refine .of_fails fun v _ => ?_
        cases h : (Token.punctuator .ellipsis).width? ('.' :: d :: r ++ v) with
        | none => rfl
        | some n =>
          obtain ⟨⟨e, he⟩, -, -⟩ := width?_punctuator_eq_some.1 h
          obtain ⟨-, he⟩ := List.cons.inj he
          obtain ⟨rfl, -⟩ := List.cons.inj he
          cases hd
    · exact .of_head ho (by simpa using hp)

lemma foreseen_character (hne : other ≠ .constant) {m : List Char} (hm : m ∈ marks)
    (b : List Char) : Foreseen .constant other (m ++ '\'' :: b) := by
  cases other with
  | endOfInput => exact absurd rfl ho
  | constant => exact absurd rfl hne
  | keyword k => exact .of_fails fun v _ => width?_keyword_quote hm rfl b v
  | identifier => exact foreseen_identifier_quote hm (.inl rfl) b
  | stringLiteral =>
    refine .of_fails fun v _ => ?_
    rw [List.append_assoc, List.cons_append]
    exact width?_enclosed_other hm rfl rfl (by decide)
  | punctuator p =>
    obtain ⟨c, r, hs, -, -, hpunct⟩ := head_of_mem_marks (b := b) hm (.inl rfl)
    rw [hs]
    exact .of_head ho (hpunct p)

lemma foreseen_string (hne : other ≠ .stringLiteral) {m : List Char} (hm : m ∈ marks)
    (b : List Char) : Foreseen .stringLiteral other (m ++ '\"' :: b) := by
  obtain ⟨c, r, hs, hdigit, hpoint, hpunct⟩ := head_of_mem_marks (b := b) hm (.inr rfl)
  cases other with
  | endOfInput => exact absurd rfl ho
  | stringLiteral => exact absurd rfl hne
  | keyword k => exact .of_fails fun v _ => width?_keyword_quote hm rfl b v
  | identifier => exact foreseen_identifier_quote hm (.inr rfl) b
  | constant =>
    refine .of_fails fun v _ => ?_
    show constant.width? _ = none
    rw [width?_constant, hs, List.cons_append, width?_numeral_eq_none hdigit hpoint,
      Option.none_or, ← List.cons_append, ← hs, List.append_assoc, List.cons_append]
    exact width?_enclosed_other hm rfl rfl (by decide)
  | punctuator p =>
    rw [hs]
    exact .of_head ho (hpunct p)

lemma foreseen_punctuator {p : Punctuator} (hne : other ≠ .punctuator p) :
    Foreseen (.punctuator p) other p.text.toList := by
  obtain ⟨c, r, hp, hpart, hsolid, hquote, hpoint⟩ := head_punctuator p
  have hhead : other.mayBegin c = false → Foreseen (.punctuator p) other p.text.toList := by
    intro hc
    rw [hp]
    exact .of_head ho hc
  have hstart : isWordStart c = false := by
    by_contra h
    rw [isWordPart_of_isWordStart (by simpa using h)] at hpart
    cases hpart
  cases other with
  | endOfInput => exact absurd rfl ho
  | keyword k => exact hhead hstart
  | identifier => exact hhead hstart
  | stringLiteral =>
    refine hhead ?_
    simp only [List.mem_cons, List.not_mem_nil, or_false, not_or] at hquote
    simp [Token.mayBegin, hstart, hquote]
  | constant =>
    by_cases hc : c = '.'
    · subst hc
      rcases hpoint rfl with rfl | rfl
      · refine .of_fails fun v hv => width?_constant_point fun d hd => ?_
        have hbar := hv d hd
        simp only [Token.bars, Bool.or_eq_false_iff] at hbar
        exact (Bool.or_eq_false_iff.1 hbar.2).2
      · exact .of_fails fun v _ => width?_constant_point (outside_cons.2 rfl)
    · refine hhead ?_
      have hdigit : isDigit c = false := by
        by_contra h
        rw [isWordPart_of_isDigit (by simpa using h)] at hpart
        cases hpart
      simp only [List.mem_cons, List.not_mem_nil, or_false, not_or] at hquote
      simp [Token.mayBegin, hstart, hdigit, hc, hquote]
  | punctuator other =>
    have hother : other ≠ p := fun h => hne (h ▸ rfl)
    exact ⟨_, fun v hv => width?_punctuator_append hother hv,
      fun n hn => snags_of_width?_punctuator hother hn⟩

theorem Shape.foreseen {t : Token} {u : List Char} (hs : Shape t u) (hne : other ≠ t) :
    Foreseen t other u := by
  cases hs with
  | word ht hc hr hmark => exact foreseen_word ho ht hc hr hmark
  | digit hc => exact foreseen_digit ho hne hc
  | point hd => exact foreseen_point ho hne hd
  | character hm => exact foreseen_character ho hne hm _
  | string hm => exact foreseen_string ho hne hm _
  | punctuator => exact foreseen_punctuator ho hne

end Foreseen
end CTree.Lexical
