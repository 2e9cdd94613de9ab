import CTree.Proofs.TokenBoundary

/-!
# Where one token only is read

A mark that no other token begins with, and a word that is not a mark in front of a quote,
leave no choice: whatever else is tried there fails. Reserved words are no identifiers, so
of all words only one is read.
-/
namespace CTree.Lexical
open Pattern

/-- No token but the given one may be read at the head of the text. -/
def Lone (t : Token) (s : List Char) : Prop := ∀ other, other ≠ t → other.width? s = none

theorem lone_endOfInput : Lone .endOfInput [] := barren_nil

theorem Lone.eq {t other : Token} {s : List Char} {n : Nat} (h : Lone t s)
    (hn : other.width? s = some n) : other = t := by
  by_contra hne
  rw [h other hne] at hn
  cases hn

/-! ## Marks -/

/-- Marks of one character. A longer mark that begins with one of them goes on with a
character that this one must not stand in front of. -/
def Punctuator.single : List Punctuator :=
  [.leftParen, .rightParen, .rightBrace, .semi, .star, .plus]

theorem lone_mark {p : Punctuator} {c : Char} {s : List Char} (hmem : p ∈ Punctuator.single)
    (hp : p.text.toList = [c]) (hnot : ∀ d ∈ s.head?, d ∉ p.entry.notBefore.toList) :
    Lone (.punctuator p) (c :: s) := by
  have hall : ∀ p ∈ Punctuator.single, ∀ c ∈ p.text.toList.head?,
      isWordPart c = false ∧ c ∉ ['.', '\'', '\"'] ∧
      ∀ q ∈ Punctuator.all, q.text.toList.head? = some c →
        q = p ∨ (q.text.toList.drop 1).head?.any (· ∈ p.entry.notBefore.toList) := by decide
  obtain ⟨hpart, hquote, hlonger⟩ := hall p hmem c (by rw [hp]; rfl)
  intro other hne
  by_cases ho : other = .endOfInput
  · rw [ho, Token.width?_endOfInput_cons]
  by_contra hread
  obtain ⟨n, hn⟩ := Option.ne_none_iff_exists'.1 hread
  obtain ⟨d, r, hs, hd⟩ := head_of_width? ho hn
  obtain ⟨rfl, -⟩ := List.cons.inj hs
  obtain ⟨q, rfl, hq⟩ := exists_punctuator hd hpart hquote
  rcases hlonger q q.mem_all hq with rfl | hlonger
  · exact hne rfl
  · obtain ⟨d, hd, hnext⟩ := (Option.any_eq_true _ _).1 hlonger
    obtain ⟨t, ht⟩ := List.head?_eq_some_iff.1 hq
    rw [ht, List.drop_one, List.tail_cons] at hd
    obtain ⟨t, rfl⟩ := List.head?_eq_some_iff.1 hd
    obtain ⟨r, hr⟩ := (width?_punctuator_eq_some.1 hn).1
    rw [ht] at hr
    obtain rfl : d :: (t ++ r) = s := (List.cons.inj hr).2
    exact hnot d rfl (of_decide_eq_true hnext)

theorem lone_leftParen (s : List Char) : Lone (.punctuator .leftParen) ('(' :: s) :=
  lone_mark (by decide) rfl fun _ _ h => by cases h

theorem lone_rightParen (s : List Char) : Lone (.punctuator .rightParen) (')' :: s) :=
  lone_mark (by decide) rfl fun _ _ h => by cases h

theorem lone_rightBrace (s : List Char) : Lone (.punctuator .rightBrace) ('\x7d' :: s) :=
  lone_mark (by decide) rfl fun _ _ h => by cases h

theorem lone_semi (s : List Char) : Lone (.punctuator .semi) (';' :: s) :=
  lone_mark (by decide) rfl fun _ _ h => by cases h

theorem lone_plus (s : List Char) : Lone (.punctuator .plus) ('+' :: ' ' :: s) := by
  refine lone_mark (by decide) rfl fun d hd => ?_
  obtain rfl : ' ' = d := by simpa using hd
  decide

/-- Where a star is read, it is not one of the mark that goes on with an equals sign. -/
theorem lone_star {s : List Char} {n : Nat} (h : (Token.punctuator .star).width? s = some n) :
    Lone (.punctuator .star) s := by
  obtain ⟨⟨r, rfl⟩, rfl, hnot⟩ := width?_punctuator_eq_some.1 h
  exact lone_mark (by decide) rfl hnot

/-! ## Words -/

/-- No literal is a word: it has a quote in it, a digit at its head or a point. -/
lemma isWord_of_whole {t other : Token} {u : List Char} (ht : t.isWord = true)
    (ho : other ≠ .endOfInput) (h : t.width? u = some u.length)
    (h' : other.width? u = some u.length) : other.isWord = true := by
  obtain ⟨-, hpart, -⟩ := word_parts (v := []) ht (by rwa [List.append_nil])
  obtain ⟨-, c, r, rfl, hc⟩ := width?_of_isWord ht h
  have hquote : ∀ quote ∈ ['\'', '\"'], quote ∉ c :: r := by
    intro quote hq hin
    have hall : ∀ quote ∈ ['\'', '\"'], isWordPart quote = false := by decide
    have hfalse := hall quote hq
    rw [hpart quote hin] at hfalse
    cases hfalse
  have hshape : Shape other (c :: r) := shape_of_width? (v := []) ho (by rwa [List.append_nil])
  generalize hu : c :: r = u at hshape hquote
  cases hshape with
  | word hword => exact hword
  | digit hd =>
    obtain ⟨rfl, -⟩ := List.cons.inj hu
    rw [isWordStart_of_isDigit hd] at hc
    cases hc
  | point =>
    obtain ⟨rfl, -⟩ := List.cons.inj hu
    cases hc
  | character => exact absurd (by simp) (hquote '\'' (by decide))
  | string => exact absurd (by simp) (hquote '\"' (by decide))
  | @punctuator p =>
    have hbegin := mayBegin_punctuator_eq_false (.inl (isWordPart_of_isWordStart hc)) p
    rw [Token.mayBegin, ← hu] at hbegin
    simp at hbegin

lemma mem_spellings_of_width? {k : Keyword} {u : List Char}
    (h : (Token.keyword k).width? u = some u.length) : ∃ w ∈ k.spellings, w.toList = u := by
  obtain ⟨a, b, ha, hb, hlen⟩ := width?_seq_eq_some.1 h
  obtain ⟨-, rfl⟩ := width?_absent_eq_some.1 hb
  obtain ⟨p, hp, ha⟩ := exists_of_width?_firstOf ha
  obtain ⟨w, hw, rfl⟩ := List.mem_map.1 hp
  obtain ⟨hpre, rfl⟩ := width?_word_eq_some.1 ha
  exact ⟨w, hw, hpre.eq_of_length hlen.symm⟩

/-- A reserved word is read by no other word. -/
lemma eq_of_word_whole {k : Keyword} {t : Token} {u : List Char} (ht : t.isWord = true)
    (h : (Token.keyword k).width? u = some u.length) (h' : t.width? u = some u.length) :
    t = .keyword k := by
  have hall : ∀ k ∈ Keyword.all, ∀ w ∈ k.spellings,
      Token.identifier.width? w.toList = none ∧
      ∀ k' ∈ Keyword.all, (Token.keyword k').width? w.toList ≠ none → k' = k := by decide +kernel
  obtain ⟨w, hw, rfl⟩ := mem_spellings_of_width? h
  obtain ⟨hident, hkeyword⟩ := hall k k.mem_all w hw
  cases t with
  | keyword k' => rw [hkeyword k' k'.mem_all (by rw [h']; nofun)]
  | identifier =>
    rw [hident] at h'
    cases h'
  | endOfInput | constant | stringLiteral | punctuator _ => cases ht

/-- A text that is a word is this word, and no other token. -/
theorem eq_of_isWord_whole {t other : Token} {u : List Char} (ht : t.isWord = true)
    (ho : other ≠ .endOfInput) (h : t.width? u = some u.length)
    (h' : other.width? u = some u.length) : other = t := by
  have hword := isWord_of_whole ht ho h h'
  cases t with
  | keyword k => exact eq_of_word_whole hword h h'
  | identifier =>
    cases other with
    | keyword k => exact (eq_of_word_whole ht h' h).symm
    | identifier => rfl
    | endOfInput | constant | stringLiteral | punctuator _ => cases hword
  | endOfInput | constant | stringLiteral | punctuator _ => cases ht

/-- No other token is read where a word is, unless the word is a mark in front of a quote. -/
theorem lone_of_isWord {t : Token} {s : List Char} {n : Nat} (ht : t.isWord = true)
    (h : t.width? s = some n) (hsnag : Outside t.snags (s.drop n)) : Lone t s := by
  have hne : t ≠ .endOfInput := by
    rintro rfl
    cases ht
  have hle := width?_le_length h
  have hlength : (s.take n).length = n := by rw [List.length_take, Nat.min_eq_left hle]
  have hstands : Stands (s.take n) (s.drop n) := ⟨t, hne, width?_take_append_drop h, hsnag⟩
  have hsettled := hstands.settled
  rw [Settled, List.take_append_drop] at hsettled
  have hwhole : t.width? (s.take n) = some (s.take n).length := by
    rw [← hsettled t hne, hlength, h]
  obtain ⟨hwidth, c, r, hs, hc⟩ := width?_of_isWord ht h
  intro other ho
  by_cases hend : other = .endOfInput
  · rw [hend, hs, Token.width?_endOfInput_cons]
  by_contra hread
  obtain ⟨m, hm⟩ := Option.ne_none_iff_exists'.1 hread
  have hm' := hm
  rw [hsettled other hend] at hm'
  by_cases hpart : m = (s.take n).length
  · rw [hpart] at hm'
    exact ho (eq_of_isWord_whole ht hend hwhole hm')
  · obtain ⟨d, -, -, hd⟩ := hstands.isTokenText.snags hend hm' hpart
    rcases snag_cases hd with ⟨rfl, -⟩ | ⟨rfl, -⟩
    · rw [(width?_of_isWord rfl hm).1, hlength, hwidth] at hpart
      exact hpart rfl
    · obtain ⟨e, r', hs', he⟩ := head_of_width? hend hm
      rw [hs] at hs'
      obtain ⟨rfl, -⟩ := List.cons.inj hs'
      rw [mayBegin_punctuator_eq_false (.inl (isWordPart_of_isWordStart hc))] at he
      cases he

/-- What an identifier is read from begins with a literal, if it is not this identifier. -/
theorem mem_of_width?_identifier {t : Token} {s : List Char} {n m : Nat} (ht : t ≠ .endOfInput)
    (h : Token.identifier.width? s = some n) (h' : t.width? s = some m) :
    t ∈ [Token.identifier, .constant, .stringLiteral] := by
  obtain ⟨-, c, r, rfl, hc⟩ := width?_of_isWord rfl h
  cases t with
  | endOfInput => exact absurd rfl ht
  | keyword k =>
    cases (lone_of_isWord rfl h' fun _ _ => rfl).eq h
  | identifier | constant | stringLiteral => decide
  | punctuator p =>
    have hbegin := mayBegin_punctuator_eq_false (.inl (isWordPart_of_isWordStart hc)) p
    rw [width?_eq_none_of_mayBegin ht hbegin] at h'
    cases h'

end CTree.Lexical
