import CTree.Proofs.RowChange

/-!
# Marks that open a comment

A comment that is not closed is no comment. Its mark is then read as two tokens where the
grammar has a place for them: a division may have a dereferenced pointer on its right. A
mark that is closed further on is never read this way.
-/
namespace CTree.Parse
open CTree.Grammar CTree.Lexical CTree.Text

theorem width?_div_eq_some {t : Token} {s : List Char} (ht : t ≠ .endOfInput)
    (h : t.width? ('/' :: s) = some 1) : t = .punctuator .div := by
  have hall : ∀ p ∈ Punctuator.all, p.text.toList.head? = some '/' →
      p.text.toList.length = 1 → p = .div := by decide
  obtain ⟨c, r, hs, hc⟩ := head_of_width? ht h
  obtain ⟨rfl, rfl⟩ := List.cons.inj hs
  obtain ⟨p, rfl, hp⟩ := exists_punctuator hc rfl (by decide)
  obtain ⟨-, hlength, -⟩ := width?_punctuator_eq_some.1 h
  rw [hall p p.mem_all hp hlength.symm]

/-- Where a slash and a star are words with nothing in between, the slash is a division and
nothing further on would close a comment. -/
theorem Passes.unclosed {here stop : Cursor} {before after : List Leaf} {a b : Leaf}
    (h : Passes here (before ++ a :: b :: after) stop) (hopens : a.Opens b) :
    a.token = .punctuator .div ∧ ∃ front rest, here.rest = front ++ '/' :: '*' :: rest ∧
      a.start = here.offset + byteCount front ∧ ¬ ['*', '/'] <:+: rest := by
  have ha := h.token_ne a (by simp)
  obtain ⟨⟨offset, s⟩, n, hbefore, hgap, hn, hstart, htext, hafter⟩ := h.split
  obtain ⟨k, -, hnext, hstar, -⟩ := hafter.next
  obtain ⟨front, hfront, hoffset⟩ := hbefore.reaches
  obtain ⟨r, rfl, rfl⟩ : ∃ r, s = '/' :: r ∧ n = 1 := by
    have hslash := htext.symm.trans hopens.slash
    have hlength := congrArg List.length hslash
    have hle := Pattern.width?_le_length hn
    rw [List.length_take, Nat.min_eq_left hle] at hlength
    obtain rfl : n = 1 := hlength
    cases s with
    | nil => cases hslash
    | cons c r => exact ⟨r, by rw [(List.cons.inj hslash).1], rfl⟩
  -- No gap is between the two words.
  have hskip : skipGap ⟨offset + 1, r⟩ = ⟨offset + 1, r⟩ := by
    refine skipGap_eq_of_offset (hnext.symm.trans ?_)
    rw [hopens.next, hstart]
  obtain ⟨rest, rfl⟩ : ∃ rest, r = '*' :: rest := by
    change b.text = (skipGap ⟨offset + 1, r⟩).rest.take k at hstar
    rw [hskip] at hstar
    have hhead := hopens.star
    rw [hstar] at hhead
    obtain ⟨more, hmore⟩ := List.take_prefix k r
    exact ⟨r.tail, List.eq_cons_of_mem_head? (by rw [← hmore, List.head?_append, hhead]; rfl)⟩
  refine ⟨width?_div_eq_some ha hn, front, rest, hfront, by rw [hstart, hoffset], ?_⟩
  exact gapWidth_open_eq_zero_iff.1 hgap

/-- Nothing closes this comment, and its mark divides by what a pointer points to. -/
lemma words_open_mark : ∃ root before after, Source.parse "int x = a /*p;" = .ok root ∧
    Node.words [root] = before ++ ⟨.punctuator .div, 10, ['/']⟩ ::
      ⟨.punctuator .star, 11, ['*']⟩ :: after := by
  have hwords : (Source.parse "int x = a /*p;").toOption.map
      (fun root => (Node.words [root]).map fun w => (w.token, w.start, w.text)) =
      some ([(.keyword .kwInt, 0, "int".toList), (.identifier, 4, ['x']),
          (.punctuator .assign, 6, ['=']), (.identifier, 8, ['a'])] ++
        (.punctuator .div, 10, ['/']) :: (.punctuator .star, 11, ['*']) ::
          [(.identifier, 12, ['p']), (.punctuator .semi, 13, [';'])]) := by
    decide +kernel
  obtain ⟨root, hparse, hroot⟩ := exists_ok_of_map hwords
  obtain ⟨before, rest, hsplit, -, hrest⟩ := List.map_eq_append_iff.1 hroot
  obtain ⟨⟨t, start, text⟩, rest, rfl, ha, hrest⟩ := List.map_eq_cons_iff.1 hrest
  obtain ⟨⟨t', start', text'⟩, after, rfl, hb, -⟩ := List.map_eq_cons_iff.1 hrest
  cases ha
  cases hb
  exact ⟨root, before, after, hparse, hsplit⟩

/-- In a source that is accepted, a mark that opens a comment is read as two words only
if nothing behind it closes the comment. -/
theorem open_mark_unclosed {source : String} {root : Node} (h : Source.parse source = .ok root)
    {before after : List Leaf} {a b : Leaf} (hwords : Node.words [root] = before ++ a :: b :: after)
    (hopens : a.Opens b) :
    a.token = .punctuator .div ∧ ∃ front rest, source.toList = front ++ '/' :: '*' :: rest ∧
      a.start = byteCount front ∧ ¬ ['*', '/'] <:+: rest := by
  obtain ⟨stop, hpasses, -⟩ := passes_of_parse (source_parse_eq_ok_iff.1 h)
  rw [hwords] at hpasses
  obtain ⟨hdiv, front, rest, hsource, hstart, hclosed⟩ := hpasses.unclosed hopens
  exact ⟨hdiv, front, rest, hsource, by rw [hstart]; exact Nat.zero_add _, hclosed⟩

theorem open_mark_unclosed_pointer : ∃ root before a b after,
    Source.parse "int x = a /*p;" = .ok root ∧
    Node.words [root] = before ++ a :: b :: after ∧ a.Opens b ∧
    a.token = .punctuator .div ∧ ∃ front rest,
      "int x = a /*p;".toList = front ++ '/' :: '*' :: rest ∧ a.start = byteCount front ∧
      ¬ ['*', '/'] <:+: rest := by
  obtain ⟨root, before, after, hparse, hwords⟩ := words_open_mark
  have hopens : Leaf.Opens ⟨.punctuator .div, 10, ['/']⟩ ⟨.punctuator .star, 11, ['*']⟩ :=
    ⟨rfl, rfl, rfl⟩
  exact ⟨root, before, _, _, after, hparse, hwords, hopens,
    open_mark_unclosed hparse hwords hopens⟩

/-- Two words that look like an open comment are accepted. -/
theorem open_mark_accepted : ∃ root before a b after,
    Source.parse "int x = a /*p;" = .ok root ∧
    Node.words [root] = before ++ a :: b :: after ∧
    a.token = .punctuator .div ∧ b.token = .punctuator .star ∧ b.start = a.start + 1 := by
  obtain ⟨root, before, after, hparse, hwords⟩ := words_open_mark
  exact ⟨root, before, _, _, after, hparse, hwords, rfl, rfl, rfl⟩

end CTree.Parse
