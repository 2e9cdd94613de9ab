import CTree.Parse.Source
import CTree.Proofs.LoneToken

/-!
# Reserved words and identifiers

A text that begins like a word is read by one rule for words and by no other one. The
rule takes all characters that continue the word. It is the rule of a reserved word if
what it takes is a spelling of this word, and the rule of identifiers if it is none of
the spellings.
-/
namespace CTree.Lexical
open Pattern

variable {s w : List Char} {t : Token} {k : Keyword}

/-! ## Words that are whole texts -/

/-- Each spelling is read in full, also one that begins with another spelling. -/
theorem width?_keyword_eq_some_iff :
    (Token.keyword k).width? w = some w.length ↔ String.ofList w ∈ k.spellings := by
  have hall : ∀ k ∈ Keyword.all, ∀ spelling ∈ k.spellings,
      (Token.keyword k).width? spelling.toList = some spelling.toList.length := by decide +kernel
  constructor
  · intro h
    obtain ⟨spelling, hmem, rfl⟩ := mem_spellings_of_width? h
    rwa [String.ofList_toList]
  · intro h
    simpa using hall k k.mem_all _ h

/-- What begins like a word is an identifier if it is not reserved. -/
theorem width?_identifier_isSome (hstart : ∃ c r, w = c :: r ∧ isWordStart c = true)
    (h : ∀ k, (Token.keyword k).width? w = none) : (Token.identifier.width? w).isSome = true := by
  obtain ⟨c, r, rfl, hc⟩ := hstart
  have hreserved : reserved.width? (c :: r) = none := by
    by_contra hread
    obtain ⟨n, hn⟩ := Option.ne_none_iff_exists'.1 hread
    obtain ⟨p, hp, hn⟩ := exists_of_width?_firstOf hn
    obtain ⟨k, -, rfl⟩ := List.mem_map.1 hp
    cases (h k).symm.trans hn
  have htaken : Token.identifier.width? (c :: r) = some (0 + (1 + (r.takeWhile isWordPart).length)) :=
    width?_seq_eq_some.2 ⟨0, _, width?_absent_eq_some.2 ⟨hreserved, rfl⟩,
      width?_seq_eq_some.2 ⟨1, _, width?_one_eq_some.2 ⟨c, r, rfl, hc, rfl⟩,
        width?_many_one isWordPart r, rfl⟩, rfl⟩
  rw [htaken]
  rfl

/-! ## Words at the head of a text -/

/-- What follows the longest run of word characters is not seen. -/
theorem width?_takeWhile (ht : t.isWord = true) :
    t.width? (s.takeWhile isWordPart) = t.width? s := by
  have hrest : Outside isWordPart (s.dropWhile isWordPart) := by
    intro c hc
    have hnot := List.head?_dropWhile_not isWordPart s
    rwa [Option.mem_def.1 hc] at hnot
  have hwidth := (within_of_isWord ht).width?_append hrest (s.takeWhile isWordPart)
  rw [List.takeWhile_append_dropWhile] at hwidth
  exact hwidth.symm

end CTree.Lexical

namespace CTree.Parse
open CTree.Lexical CTree.Text

theorem parseWith_token_eq_ok_iff {t : Token} {s : List Char} {node : Node} :
    parseWith (.token t) s = .ok node ↔ ∃ n, t.width? s = some n ∧ node = .leaf t 0 (s.take n) := by
  rw [parseWith, readSymbol, readToken]
  cases h : t.width? s with
  | none => simp [Cursor.start, h]
  | some n => simp [Cursor.start, h, eq_comm]

/-- Of the rules for words exactly one matches where a word begins. It takes the word as a
whole, and it is the rule of a reserved word exactly if the word is a spelling of it. -/
theorem exists_word_rule {s : List Char} (h : ∃ c r, s = c :: r ∧ isWordStart c = true) :
    ∃ t : Token, t.isWord = true ∧
      parseWith (.token t) s = .ok (.leaf t 0 (s.takeWhile isWordPart)) ∧
      (∀ other : Token, other.isWord = true →
        (∃ node, parseWith (.token other) s = .ok node) → other = t) ∧
      ∀ k : Keyword, t = .keyword k ↔ String.ofList (s.takeWhile isWordPart) ∈ k.spellings := by
  set w := s.takeWhile isWordPart with hw
  have hwhole {t : Token} {n : Nat} (ht : t.isWord = true) (hn : t.width? s = some n) :
      n = w.length ∧ t.width? w = some w.length := by
    obtain ⟨rfl, -⟩ := width?_of_isWord ht hn
    exact ⟨rfl, by rw [hw, width?_takeWhile ht, hn]⟩
  have hunique {t other : Token} (ht : t.isWord = true) (ho : other.isWord = true)
      (h : t.width? w = some w.length) (h' : other.width? w = some w.length) : other = t :=
    eq_of_isWord_whole ht (by rintro rfl; cases ho) h h'
  -- Some rule matches: that of a reserved word, or else that of identifiers.
  obtain ⟨t, ht, n, hn⟩ : ∃ t : Token, t.isWord = true ∧ ∃ n, t.width? s = some n := by
    by_cases hreserved : ∃ k n, (Token.keyword k).width? w = some n
    · obtain ⟨k, n, hn⟩ := hreserved
      exact ⟨.keyword k, rfl, n, by rw [← width?_takeWhile rfl, ← hw, hn]⟩
    · obtain ⟨c, r, rfl, hc⟩ := h
      have hstart : ∃ c r, w = c :: r ∧ isWordStart c = true :=
        ⟨c, _, by rw [hw, List.takeWhile_cons_of_pos (isWordPart_of_isWordStart hc)], hc⟩
      have hsome := width?_identifier_isSome hstart fun k => by
        by_contra hread
        exact hreserved ⟨k, Option.ne_none_iff_exists'.1 hread⟩
      rw [hw, width?_takeWhile rfl] at hsome
      exact ⟨.identifier, rfl, Option.isSome_iff_exists.1 hsome⟩
  obtain ⟨rfl, hread⟩ := hwhole ht hn
  have htaken : s.take w.length = w :=
    (List.prefix_iff_eq_take.1 (List.takeWhile_prefix isWordPart)).symm
  refine ⟨t, ht, parseWith_token_eq_ok_iff.2 ⟨_, hn, by rw [htaken]⟩, ?_, fun k => ⟨?_, ?_⟩⟩
  · rintro other ho ⟨node, hnode⟩
    obtain ⟨m, hm, -⟩ := parseWith_token_eq_ok_iff.1 hnode
    exact hunique ht ho hread (hwhole ho hm).2
  · rintro rfl
    exact width?_keyword_eq_some_iff.1 hread
  · intro hspelling
    exact (hunique ht rfl hread (width?_keyword_eq_some_iff.2 hspelling)).symm

/-- A spelling that goes on like a longer one, and stops before it. -/
theorem exists_word_rule_inline :
    (∃ c r, "__inline_x".toList = c :: r ∧ isWordStart c = true) ∧
    parseWith (.token .identifier) "__inline_x".toList =
      .ok (.leaf .identifier 0 "__inline_x".toList) ∧
    (∃ c r, "__inline(x".toList = c :: r ∧ isWordStart c = true) ∧
    parseWith (.token (.keyword .kwInline)) "__inline(x".toList =
      .ok (.leaf (.keyword .kwInline) 0 "__inline".toList) := by
  have hstart (s : List Char) (h : s.head? = some '_') :
      ∃ c r, s = c :: r ∧ isWordStart c = true := by
    obtain ⟨r, rfl⟩ := List.head?_eq_some_iff.1 h
    exact ⟨'_', r, rfl, by decide⟩
  have hfirst := hstart "__inline_x".toList (by decide)
  have hsecond := hstart "__inline(x".toList (by decide)
  refine ⟨hfirst, ?_, hsecond, ?_⟩
  · obtain ⟨t, ht, hread, -, hkeyword⟩ := exists_word_rule hfirst
    have hnone : ∀ k, t ≠ .keyword k := by
      rintro k rfl
      have hspelling := (hkeyword k).1 rfl
      revert hspelling
      cases k <;> decide
    cases t with
    | identifier => exact hread
    | keyword k => exact absurd rfl (hnone k)
    | endOfInput | constant | stringLiteral | punctuator _ => cases ht
  · obtain ⟨t, -, hread, -, hkeyword⟩ := exists_word_rule hsecond
    obtain rfl : t = .keyword .kwInline := (hkeyword _).2 (by decide)
    exact hread

end CTree.Parse
