import CTree.Proofs.WordRow

/-!
# Words and numbers are taken whole

A word is read up to its last character. A number is not: it ends where no longer number can
be read, whatever follows. But nowhere does the grammar ask for a token that may begin with a
character of a word right behind a constant, so a source where such a character follows is
refused.
-/
namespace CTree.Lexical
open Pattern

/-- The tokens that may begin with a character of a word. -/
def Token.wordlike : Token → Bool
  | keyword _ | identifier | constant | stringLiteral => true
  | endOfInput | punctuator _ => false

lemma Token.mayBegin_eq_false {t : Token} {c : Char} (h : t.wordlike = false)
    (hc : isWordPart c = true) : t.mayBegin c = false := by
  cases t with
  | keyword _ | identifier | constant | stringLiteral => cases h
  | endOfInput => rfl
  | punctuator p => exact mayBegin_punctuator_eq_false (.inl hc) p

lemma gapWidth_of_isWordPart {c : Char} (hc : isWordPart c = true) (s : List Char) :
    gapWidth (c :: s) = 0 := by
  refine gapWidth_eq_zero_of_head (solid_of (by decide) c hc) (fun hin => ?_) s
  have hall : ∀ c ∈ ['\\', '#', '/'], isWordPart c = false := by decide
  rw [hall c hin] at hc
  cases hc

/-- Of all tokens only a constant begins with a digit. -/
lemma eq_constant_of_isDigit {t : Token} {c : Char} {s : List Char} {n : Nat}
    (ht : t ≠ .endOfInput) (hc : isDigit c = true) (h : t.width? (c :: s) = some n) :
    t = .constant := by
  obtain ⟨d, r, hs, hd⟩ := head_of_width? ht h
  obtain ⟨rfl, -⟩ := List.cons.inj hs
  have hstart := isWordStart_of_isDigit hc
  cases t with
  | endOfInput => exact absurd rfl ht
  | constant => rfl
  | keyword _ | identifier =>
    rw [Token.mayBegin, hstart] at hd
    cases hd
  | stringLiteral =>
    have hquote : c ≠ '\"' := by
      rintro rfl
      cases hc
    simp [Token.mayBegin, hstart, hquote] at hd
  | punctuator p =>
    rw [mayBegin_punctuator_eq_false (.inl (isWordPart_of_isDigit hc))] at hd
    cases hd

/-- A text that ends with a character of a word is a word or a number. -/
theorem isWord_or_constant_of_last {t : Token} {u v : List Char} {c : Char}
    (ht : t ≠ .endOfInput) (h : t.width? (u ++ [c] ++ v) = some (u ++ [c]).length)
    (hc : isWordPart c = true) : t.isWord = true ∨ t = .constant := by
  cases t with
  | endOfInput => exact absurd rfl ht
  | keyword _ | identifier => exact .inl rfl
  | constant => exact .inr rfl
  | stringLiteral =>
    change stringLiteral.width? _ = _ at h
    rw [stringLiteral_eq] at h
    obtain ⟨m, -, b, hu, -⟩ := enclosed_parts rfl h
    rw [← List.cons_append, ← List.append_assoc] at hu
    obtain rfl : c = '\"' := List.singleton_inj.1 (List.append_inj_right' hu rfl)
    cases hc
  | punctuator p =>
    have hall : ∀ p ∈ Punctuator.all, ∀ c ∈ p.text.toList, isWordPart c = false := by
      decide +kernel
    have hshape := shape_of_width? ht h
    generalize hu : u ++ [c] = text at hshape
    cases hshape with
    | word hword => cases hword
    | punctuator =>
      rw [hall p p.mem_all c (by rw [← hu]; simp)] at hc
      cases hc

/-- There is one text that stands at the head of another one. -/
theorem Stands.eq {u v u' v' : List Char} (h : Stands u v) (h' : Stands u' v')
    (heq : u ++ v = u' ++ v') : u = u' := by
  obtain ⟨t, ht, hu, hsnag⟩ := h'
  rw [← heq, h.settled t ht] at hu
  obtain ⟨r, rfl⟩ : u' <+: u := List.prefix_of_prefix_length_le ⟨v', heq.symm⟩
    (List.prefix_append u v) (Pattern.width?_le_length hu)
  cases r with
  | nil => exact List.append_nil u'
  | cons c r =>
    obtain ⟨d, s, hs, hd⟩ := h.isTokenText.snags ht hu (by simp)
    rw [List.drop_left] at hs
    rw [hs, List.append_assoc, List.cons_append] at heq
    rw [← List.append_cancel_left heq, outside_cons, hd] at hsnag
    cases hsnag

end CTree.Lexical

namespace CTree.Grammar
open CTree.Lexical

/-- No constant stands in front of a token that may begin with a character of a word. -/
theorem Rule.parted_constant : Rule.Parted (· = .constant) Token.wordlike := by
  constructor <;> decide +kernel

end CTree.Grammar

namespace CTree.Parse
open CTree.Grammar CTree.Lexical CTree.Lexical.Pattern CTree.Text

/-! ## Where the words stand -/

/-- The character at the byte offset is one of the word. -/
def Leaf.Covers (w : Leaf) (offset : Nat) : Prop :=
  w.start ≤ offset ∧ offset < w.start + byteCount w.text

/-- A word that covers a character is divided by it. -/
theorem Leaf.Covers.parts {w : Leaf} {front rest before after : List Char} {c : Char}
    (h : w.Covers (byteCount before)) (hstart : byteCount front = w.start)
    (hsource : front ++ (w.text ++ rest) = before ++ c :: after) :
    ∃ a b, before = front ++ a ∧ w.text = a ++ c :: b ∧ after = b ++ rest := by
  obtain ⟨hle, hlt⟩ := h
  rw [← hstart] at hle hlt
  obtain ⟨a, rfl, ha⟩ : ∃ a, before = front ++ a ∧ w.text ++ rest = a ++ c :: after := by
    rcases List.append_eq_append_iff.1 hsource with ⟨a, rfl, ha⟩ | ⟨a, rfl, ha⟩
    · exact ⟨a, rfl, ha⟩
    · rw [byteCount_append] at hle
      obtain rfl : a = [] := byteCount_eq_zero_iff.1 (by omega)
      exact ⟨[], by rw [List.append_nil, List.append_nil], ha.symm⟩
  rw [byteCount_append] at hlt
  rcases List.append_eq_append_iff.1 ha with ⟨b, rfl, -⟩ | ⟨b, hb, hrest⟩
  · rw [byteCount_append] at hlt
    omega
  · cases b with
    | nil =>
      rw [hb, List.append_nil] at hlt
      omega
    | cons d b =>
      obtain ⟨rfl, rfl⟩ := List.cons.inj hrest
      exact ⟨a, b, rfl, hb, rfl⟩

section
variable {here stop : Cursor} {words : List Leaf}

theorem Passes.offset_le (h : Passes here words stop) : ∀ w ∈ words, here.offset ≤ w.start := by
  induction h with
  | stay => nofun
  | @skip here _ _ _ ih =>
    intro w hw
    obtain ⟨s, -, hs⟩ := reaches_skipGap here
    have hle := ih w hw
    omega
  | @word here t n words _ _ _ _ _ ih =>
    intro w hw
    rcases List.mem_cons.1 hw with rfl | hw
    · exact Nat.le_refl _
    · have hle := ih w hw
      rw [Cursor.advance_offset] at hle
      omega

/-- The words lie one behind the other. -/
theorem Passes.ordered (h : Passes here words stop) :
    words.Pairwise fun v w => v.start + byteCount v.text ≤ w.start := by
  induction h with
  | stay => exact .nil
  | skip _ ih => exact ih
  | @word here t n words _ _ _ _ hrest ih =>
    refine List.pairwise_cons.2 ⟨fun w hw => ?_, ih⟩
    have hle := hrest.offset_le w hw
    rwa [Cursor.advance_offset] at hle

/-- No character is of two words. -/
theorem Passes.eq_of_covers {v w : Leaf} {offset : Nat} (h : Passes here words stop)
    (hv : v ∈ words) (hw : w ∈ words) (hcovers : v.Covers offset) (hcovers' : w.Covers offset) :
    v = w := by
  obtain ⟨hle, hlt⟩ := hcovers
  obtain ⟨hle', hlt'⟩ := hcovers'
  by_contra hne
  have hapart : words.Pairwise fun v w =>
      v.start + byteCount v.text ≤ w.start ∨ w.start + byteCount w.text ≤ v.start :=
    h.ordered.imp .inl
  have hsymm : Std.Symm fun v w : Leaf =>
      v.start + byteCount v.text ≤ w.start ∨ w.start + byteCount w.text ≤ v.start :=
    ⟨fun _ _ => Or.symm⟩
  rcases hapart.forall hv hw hne with hbefore | hbefore <;> omega

end

/-- The words of a text have their places in it. -/
theorem Passes.text_eq {source : List Char} {stop : Cursor} {before after : List Leaf} {w : Leaf}
    (h : Passes (.start source) (before ++ w :: after) stop) :
    ∃ front behind, source = front ++ (w.text ++ behind.rest) ∧ byteCount front = w.start ∧
      w.token.width? (w.text ++ behind.rest) = some w.text.length ∧ Passes behind after stop := by
  obtain ⟨mid, n, hbefore, -, hn, hstart, htext, hafter⟩ := h.split
  obtain ⟨front, hfront, hoffset⟩ := hbefore.reaches
  have hmid : w.text ++ (mid.advance n).rest = mid.rest := by
    rw [htext, Cursor.advance_rest, List.take_append_drop]
  refine ⟨front, mid.advance n, by rw [hmid]; exact hfront, ?_, ?_, hafter⟩
  · rw [hstart, hoffset]
    exact (Nat.zero_add _).symm
  · rw [Cursor.advance_rest, htext]
    exact Pattern.width?_take_append_drop hn

/-! ## What follows a word or a number -/

/-- A constant stands in front of nothing that may begin with a character of a word. -/
theorem chain_of_parse {source : List Char} {root : Node} (h : parse source = .ok root) :
    ((Node.words [root]).map (·.token)).IsChain fun t next =>
      ¬ (decide (t = .constant) = true ∧ next.wordlike = true) := by
  obtain ⟨inside, stop, hinside, -, rfl⟩ := parse_eq_ok_iff_inside.1 h
  rw [Node.words_source]
  exact (hinside.neighbours Rule.parted_constant rfl (by decide +kernel)).chain

/-- No character of a word follows a word or a number. -/
theorem Passes.outside_isWordPart {here stop : Cursor} {w : Leaf} {after : List Leaf}
    (h : Passes here after stop) (hend : (skipGap stop).rest = [])
    (hchain : ((w :: after).map (·.token)).IsChain fun t next =>
      ¬ (decide (t = .constant) = true ∧ next.wordlike = true))
    (hwidth : w.token.width? (w.text ++ here.rest) = some w.text.length)
    (hw : w.token.isWord = true ∨ w.token = .constant) : Outside isWordPart here.rest := by
  rcases hw with hw | hw
  · exact (word_parts hw hwidth).2.2
  · refine h.outside (fun c s hc => gapWidth_of_isWordPart hc s)
      (fun _ => by rw [hend]; exact outside_nil _) fun x hx c s hc => ?_
    refine width?_eq_none_of_mayBegin (h.token_ne x (List.mem_of_mem_head? hx)) ?_ s
    refine Token.mayBegin_eq_false ?_ hc
    have hno := hchain.rel_head? (y := x.token) (by rw [List.head?_map, Option.mem_def.1 hx]; rfl)
    simpa [hw] using hno

/-- What it means that no word and no number of a source is split. -/
structure Unsplit (source : List Char) (words : List Leaf) : Prop where
  ends : ∀ w ∈ words, w.token.isWord = true ∨ w.token = .constant →
    ∃ before after, source = before ++ (w.text ++ after) ∧ byteCount before = w.start ∧
      Outside isWordPart after
  together : ∀ before c d after, source = before ++ c :: d :: after →
    isWordPart c = true → isWordPart d = true → ∀ v ∈ words, ∀ w ∈ words,
      v.Covers (byteCount before) → w.Covers (byteCount (before ++ [c])) → v = w

theorem unsplit_of_parse {source : List Char} {root : Node} (h : parse source = .ok root) :
    Unsplit source (Node.words [root]) := by
  obtain ⟨stop, hpasses, hend, -⟩ := passes_of_parse h
  have hchain := chain_of_parse h
  have hplace : ∀ w ∈ Node.words [root], ∃ front rest, source = front ++ (w.text ++ rest) ∧
      byteCount front = w.start ∧ w.token.width? (w.text ++ rest) = some w.text.length ∧
      (w.token.isWord = true ∨ w.token = .constant → Outside isWordPart rest) := by
    intro w hw
    obtain ⟨before, after, hwords⟩ := List.append_of_mem hw
    rw [hwords] at hpasses hchain
    obtain ⟨front, behind, hsource, hstart, hwidth, hafter⟩ := hpasses.text_eq
    rw [List.map_append] at hchain
    exact ⟨front, behind.rest, hsource, hstart, hwidth,
      hafter.outside_isWordPart hend hchain.right_of_append hwidth⟩
  constructor
  · intro w hw hword
    obtain ⟨front, rest, hsource, hstart, -, hout⟩ := hplace w hw
    exact ⟨front, rest, hsource, hstart, hout hword⟩
  · intro before c d after hsource hc hd v hv w hw hcovers hcovers'
    obtain ⟨front, rest, hsource', hstart, hwidth, hout⟩ := hplace v hv
    obtain ⟨a, b, rfl, htext, hbehind⟩ := hcovers.parts hstart (hsource'.symm.trans hsource)
    cases b with
    | nil =>
      -- The word ends between the two characters.
      rw [htext] at hwidth
      have hout := hout (isWord_or_constant_of_last (hpasses.token_ne v hv) hwidth hc)
      obtain rfl : d :: after = rest := hbehind
      rw [outside_cons, hd] at hout
      cases hout
    | cons e b =>
      have hsize := Char.utf8Size_pos e
      refine hpasses.eq_of_covers hv hw ⟨hcovers.1.trans ?_, ?_⟩ hcovers'
      · rw [byteCount_append (front ++ a)]
        exact Nat.le_add_right _ _
      · rw [← hstart, htext]
        simp only [byteCount_append, byteCount_cons, byteCount_nil]
        omega

/-! ## Numbers that no token ends -/

/-- The words of a source are those of every row in it, as far as the row goes. -/
theorem Passes.follows {final : List Char} {texts : List (List Char)} {here stop : Cursor}
    {words : List Leaf} (h : Passes here words stop) (hend : (skipGap stop).rest = [])
    (hchain : (words.map (·.token)).IsChain fun t next => t.clash next = false)
    (hrow : RowTo final texts here.rest) :
    ∃ front back mid, words = front ++ back ∧ Passes mid back stop ∧
      (skipGap mid).rest = final := by
  generalize hs : here.rest = s at hrow
  induction hrow generalizing here words with
  | done hfinal => exact ⟨[], words, here, rfl, h, by rw [skipGap_rest, hs, hfinal]⟩
  | @word s u v texts hu hstands _ ih =>
    rw [← hs, ← skipGap_rest] at hu
    cases words with
    | nil =>
      rw [h.nothing, hu] at hend
      exact absurd (List.append_eq_nil_iff.1 hend).1 hstands.isTokenText.ne_nil
    | cons w words =>
      obtain ⟨n, hn, -, -, hrest⟩ := h.next
      have hsnag := hrest.outside_snags (fun _ => by rw [hend]; exact outside_nil _)
        fun x hx => hchain.rel_head? (by rw [List.head?_map, Option.mem_def.1 hx]; rfl)
      rw [Cursor.advance_rest] at hsnag
      have hstands' : Stands ((skipGap here).rest.take n) ((skipGap here).rest.drop n) :=
        ⟨w.token, h.token_ne w List.mem_cons_self, Pattern.width?_take_append_drop hn, hsnag⟩
      have heq : u ++ v = (skipGap here).rest.take n ++ (skipGap here).rest.drop n := by
        rw [List.take_append_drop, hu]
      have hsame := hstands.eq hstands' heq
      rw [← hsame] at heq
      obtain ⟨front, back, mid, rfl, hback, hmid⟩ := ih hrest hchain.tail
        (by rw [Cursor.advance_rest, List.append_cancel_left heq])
      exact ⟨w :: front, back, mid, rfl, hback, hmid⟩

/-- Where a number would be read with a character of a word behind it, no word of a source
begins. -/
theorem not_rowTo_of_split {source : List Char} {root : Node} {texts : List (List Char)}
    {s : List Char} {c : Char} {k : Nat} (h : parse source = .ok root) (hc : isDigit c = true)
    (hk : Token.constant.width? (c :: s) = some k)
    (hpart : ¬ Outside isWordPart ((c :: s).drop k)) : ¬ RowTo (c :: s) texts source := by
  intro hrow
  obtain ⟨stop, hpasses, hend, hclash⟩ := passes_of_parse h
  obtain ⟨front, back, mid, hwords, hback, hmid⟩ := hpasses.follows hend hclash hrow
  have hchain := chain_of_parse h
  rw [hwords, List.map_append] at hchain
  cases back with
  | nil =>
    rw [hback.nothing, hmid] at hend
    cases hend
  | cons w after =>
    obtain ⟨n, hn, -, htext, hafter⟩ := hback.next
    rw [hmid] at hn htext
    have hw := eq_constant_of_isDigit (hback.token_ne w List.mem_cons_self) hc hn
    have hkn : k = n := by
      rw [hw, hk] at hn
      exact Option.some.inj hn
    subst hkn
    refine hpart ?_
    have hout := hafter.outside_isWordPart hend hchain.right_of_append ?_ (.inr hw)
    · rwa [Cursor.advance_rest, hmid] at hout
    · rw [Cursor.advance_rest, hmid, htext]
      exact Pattern.width?_take_append_drop hn

/-- Words and numbers are not split, so a source is rejected where behind its words and gaps a
text follows that begins like a number and goes on like a word. -/
theorem words_unsplit (source : String) :
    (∀ root, Source.parse source = .ok root → Unsplit source.toList (Node.words [root])) ∧
    ∀ number ∈ ["1abc", "0xg", "1.5fl"], ∀ texts after,
      RowTo (number.toList ++ after) texts source.toList →
        ∃ e, Source.parse source = .error e := by
  refine ⟨fun root h => unsplit_of_parse (source_parse_eq_ok_iff.1 h), ?_⟩
  intro number hnumber texts after hrow
  have hsplit : ∃ c s k, number.toList ++ after = c :: s ∧ isDigit c = true ∧
      Token.constant.width? (c :: s) = some k ∧ ¬ Outside isWordPart ((c :: s).drop k) := by
    simp only [List.mem_cons, List.not_mem_nil, or_false] at hnumber
    rcases hnumber with rfl | rfl | rfl
    · exact ⟨'1', _, 1, rfl, rfl, rfl, fun h => nomatch outside_cons.1 h⟩
    · exact ⟨'0', _, 1, rfl, rfl, rfl, fun h => nomatch outside_cons.1 h⟩
    · exact ⟨'1', _, 4, rfl, rfl, rfl, fun h => nomatch outside_cons.1 h⟩
  obtain ⟨c, s, k, hs, hc, hk, hpart⟩ := hsplit
  rw [hs] at hrow
  cases hparse : Source.parse source with
  | error e => exact ⟨e, rfl⟩
  | ok root =>
    exact absurd hrow (not_rowTo_of_split (source_parse_eq_ok_iff.1 hparse) hc hk hpart)

theorem words_unsplit_suffix :
    (∃ root, Source.parse "int x=1.5f;" = .ok root ∧
      Unsplit "int x=1.5f;".toList (Node.words [root])) ∧
    RowTo ("1.5fl".toList ++ [';']) ["int".toList, ['x'], ['=']] "int x=1.5fl;".toList ∧
    ∃ e, Source.parse "int x=1.5fl;" = .error e := by
  have hstop : (Source.parse "int x=1.5f;").toOption.map Node.stop = some 11 := by decide +kernel
  obtain ⟨root, hparse, -⟩ := exists_ok_of_map hstop
  have hrow : RowTo ("1.5fl".toList ++ [';']) ["int".toList, ['x'], ['=']]
      "int x=1.5fl;".toList := by
    refine .word (u := "int".toList) (v := " x=1.5fl;".toList) (by decide)
      ⟨.keyword .kwInt, nofun, by decide, outside_cons.2 (by decide)⟩ ?_
    refine .word (u := ['x']) (v := "=1.5fl;".toList) (by decide)
      ⟨.identifier, nofun, by decide, outside_cons.2 (by decide)⟩ ?_
    refine .word (u := ['=']) (v := "1.5fl;".toList) (by decide)
      ⟨.punctuator .assign, nofun, by decide, outside_cons.2 (by decide)⟩ ?_
    exact .done (by decide)
  exact ⟨⟨root, hparse, (words_unsplit "int x=1.5f;").1 root hparse⟩, hrow,
    (words_unsplit "int x=1.5fl;").2 "1.5fl" (by decide) _ _ hrow⟩

end CTree.Parse
