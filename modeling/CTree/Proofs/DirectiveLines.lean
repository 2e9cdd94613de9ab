import CTree.Proofs.LayoutIndependence
import CTree.Proofs.RowChange
import CTree.Proofs.UnsplitWords

/-!
# Preprocessor lines behind other text

A hash begins a preprocessor line wherever a gap may stand, not only at the beginning of a
line. So in a source that is accepted each hash is one of a literal, or it is skipped with a
comment or with all that follows it in its line, whatever stands in front of it. What is
skipped has no say: with a blank in its place the source has the same tree.
-/
namespace CTree.Lexical
open Pattern

/-! ## The pieces of a gap, one by one -/

/-- Pieces of a gap one behind the other in front of a rest, each as long as it is taken to be. -/
inductive Skipped (rest : List Char) : List Char → Prop
  | nil : Skipped rest []
  | cons {piece more} : blank.width? (piece ++ (more ++ rest)) = some piece.length ∨
      comment.width? (piece ++ (more ++ rest)) = some piece.length →
      Skipped rest more → Skipped rest (piece ++ more)

theorem gapWidth_piece {piece rest : List Char} (h : blank.width? (piece ++ rest) =
    some piece.length ∨ comment.width? (piece ++ rest) = some piece.length) :
    gapWidth (piece ++ rest) = piece.length + gapWidth rest := by
  rcases h with h | h
  · rw [gapWidth_of_blank h, List.drop_left]
  · rw [gapWidth_of_comment h, List.drop_left]

theorem Skipped.gapWidth_append {gap rest : List Char} (h : Skipped rest gap) :
    gapWidth (gap ++ rest) = gap.length + gapWidth rest := by
  induction h with
  | nil => simp
  | cons hpiece _ ih =>
    rw [List.append_assoc, gapWidth_piece hpiece, ih, List.length_append, Nat.add_assoc]

/-- Each character of a gap is one of a piece. -/
theorem exists_piece (s : List Char) {i : Nat} (h : i < gapWidth s) :
    ∃ gap piece rest, s = gap ++ (piece ++ rest) ∧ Skipped (piece ++ rest) gap ∧
      (blank.width? (piece ++ rest) = some piece.length ∨
        comment.width? (piece ++ rest) = some piece.length) ∧
      gap.length ≤ i ∧ i < gap.length + piece.length := by
  induction hm : s.length using Nat.strongRecOn generalizing s i with
  | ind m ih =>
    subst hm
    obtain ⟨n, hn⟩ : ∃ n, blank.width? s = some n ∨ comment.width? s = some n := by
      by_contra hno
      push Not at hno
      have hzero := gapWidth_eq_zero_iff.2 ⟨Option.eq_none_iff_forall_ne_some.2 fun n => (hno n).1,
        Option.eq_none_iff_forall_ne_some.2 fun n => (hno n).2⟩
      omega
    have hpos : 0 < n := hn.elim (consuming_blank s n) (consuming_comment s n)
    have hle : n ≤ s.length := hn.elim width?_le_length width?_le_length
    obtain ⟨piece, s, rfl, rfl⟩ : ∃ piece t, s = piece ++ t ∧ piece.length = n :=
      ⟨s.take n, s.drop n, (List.take_append_drop n s).symm, by rw [List.length_take]; omega⟩
    rw [gapWidth_piece hn] at h
    by_cases hi : i < piece.length
    · exact ⟨[], piece, s, rfl, .nil, hn, Nat.zero_le _, by simpa using hi⟩
    · obtain ⟨gap, piece', rest, rfl, hgap, hpiece, hlo, hhi⟩ :=
        ih s.length (by rw [List.length_append]; omega) s (i := i - piece.length) (by omega) rfl
      refine ⟨piece ++ gap, piece', rest, (List.append_assoc ..).symm, .cons hn hgap, hpiece, ?_, ?_⟩
      · rw [List.length_append]
        omega
      · rw [List.length_append]
        omega

/-! ## A blank for what follows -/

/-- The end of a line is seen from whether a line feed follows. -/
lemma width?_lineEnd_of_head {e y z : List Char} (h : lineEnd.width? (e ++ y) = some e.length)
    (hz : z.head? = some '\n' → y.head? = some '\n') :
    lineEnd.width? (e ++ z) = some e.length := by
  have hend := width?_lineEnd h
  rw [List.take_left] at hend
  rcases hend with rfl | rfl | rfl
  · rfl
  · rfl
  · have hno : y.head? ≠ some '\n' := by
      intro hy
      rw [List.eq_cons_of_mem_head? hy] at h
      cases h
    cases z with
    | nil => rfl
    | cons c z =>
      have hc : '\n' ≠ c := by
        rintro rfl
        exact hno (hz rfl)
      simp [lineEnd, firstOf, text, width?_alt, width?_word, hc]

/-- White space sees no more of what follows than whether a line feed does. -/
lemma width?_blank_of_head {piece y z : List Char}
    (h : blank.width? (piece ++ y) = some piece.length)
    (hz : z.head? = some '\n' → y.head? = some '\n') :
    blank.width? (piece ++ z) = some piece.length := by
  rcases width?_alt_eq_some.1 h with h | ⟨-, h⟩
  · obtain ⟨c, r, hs, hc, hlength⟩ := width?_one_eq_some.1 h
    obtain ⟨d, rfl⟩ := List.length_eq_one_iff.1 hlength
    obtain ⟨rfl, -⟩ := List.cons.inj hs
    exact width?_alt_of_some (width?_one_eq_some.2 ⟨d, z, rfl, hc, rfl⟩)
  · obtain ⟨a, b, ha, hb, hlength⟩ := width?_seq_eq_some.1 h
    obtain ⟨⟨r, hr⟩, rfl⟩ := width?_word_eq_some.1 ha
    change piece.length = 1 + b at hlength
    cases piece with
    | nil =>
      rw [List.length_nil] at hlength
      omega
    | cons d e =>
      obtain ⟨rfl, rfl⟩ := List.cons.inj hr
      obtain rfl : b = e.length := by
        rw [List.length_cons] at hlength
        omega
      have hend := width?_lineEnd_of_head hb hz
      refine width?_alt_eq_some.2 (.inr ⟨rfl, width?_seq_eq_some.2 ⟨1, e.length, rfl, hend, ?_⟩⟩)
      rw [List.length_cons, Nat.add_comm]

/-- What is skipped in front of another piece is skipped in front of a blank too. -/
theorem Skipped.in_front_of_blank {gap y : List Char} {c : Char} (h : Skipped (c :: y) gap)
    (hc : isGlue c = false) (z : List Char) : Skipped (' ' :: z) gap := by
  induction h with
  | nil => exact .nil
  | @cons piece more hpiece _ ih =>
    refine .cons ?_ ih
    refine hpiece.imp (fun hblank => width?_blank_of_head hblank fun hhead => ?_) fun hcomment => ?_
    · cases more with
      | nil => cases hhead
      | cons d more => exact hhead
    · rw [← List.append_assoc] at hcomment ⊢
      exact width?_comment_change hcomment (by rw [List.length_append]; omega) (by simp)
        (outside_cons.2 hc) _

/-- With a blank for a comment the text goes on where it did. -/
theorem drop_gapWidth_blanked {gap piece rest : List Char} (h : Skipped (piece ++ rest) gap)
    (hpiece : comment.width? (piece ++ rest) = some piece.length) :
    (gap ++ ' ' :: rest).drop (gapWidth (gap ++ ' ' :: rest)) =
      (gap ++ (piece ++ rest)).drop (gapWidth (gap ++ (piece ++ rest))) := by
  obtain ⟨c, y, hs, hc⟩ : ∃ c y, piece ++ rest = c :: y ∧ isGlue c = false := by
    obtain ⟨y, hs | hs⟩ := head_of_comment hpiece
    · exact ⟨_, y, hs, rfl⟩
    · exact ⟨_, y, hs, rfl⟩
  have hblank : Skipped (' ' :: rest) gap := by
    rw [hs] at h
    exact h.in_front_of_blank hc rest
  rw [h.gapWidth_append, hblank.gapWidth_append, gapWidth_piece (.inr hpiece),
    gapWidth_blank (by decide), List.drop_length_add_append, List.drop_length_add_append,
    List.drop_length_add_append, Nat.add_comm 1, List.drop_succ_cons]

/-- A blank closes no comment. -/
theorem closesNoMore_blank (piece rest : List Char) :
    ClosesNoMore (piece ++ rest) (' ' :: rest) := by
  intro s hs
  rcases closed_of_closed_append (by decide) hs with h | h
  · exact h.trans (List.prefix_append _ _).isInfix
  · exact h.trans ((List.suffix_append piece rest).trans (List.suffix_append s _)).isInfix

/-- A hash is read as a part of a literal only. -/
theorem literal_of_mem_hash {t : Token} {u v : List Char} (ht : t ≠ .endOfInput)
    (h : t.width? (u ++ v) = some u.length) (hmem : '#' ∈ u) :
    t = .constant ∨ t = .stringLiteral := by
  have hword : t.isWord = true → False := fun hisWord => by
    have hpart := (word_parts hisWord h).2.1 '#' hmem
    cases hpart
  cases t with
  | endOfInput => exact absurd rfl ht
  | keyword k => exact (hword rfl).elim
  | identifier => exact (hword rfl).elim
  | constant => exact .inl rfl
  | stringLiteral => exact .inr rfl
  | punctuator p =>
    have hall : ∀ p ∈ Punctuator.all, '#' ∉ p.text.toList := by decide
    rw [eq_text_of_width?_punctuator h] at hmem
    exact absurd hmem (hall p p.mem_all)

end CTree.Lexical

namespace CTree.Parse
open CTree.Grammar CTree.Lexical CTree.Lexical.Pattern CTree.Text

/-! ## What is skipped in a source -/

/-- Of two fronts of a text the longer one goes on behind the shorter one. -/
lemma exists_append_of_length_le {s t u v : List Char} (h : s ++ t = u ++ v)
    (hle : s.length ≤ u.length) : ∃ b, u = s ++ b ∧ t = b ++ v := by
  obtain ⟨b, rfl⟩ := List.prefix_of_prefix_length_le ⟨t, h⟩ ⟨v, rfl⟩ hle
  rw [List.append_assoc] at h
  exact ⟨b, rfl, List.append_cancel_left h⟩

/-- A comment or a preprocessor line is skipped. It is a piece of the gap that begins the source
or stands behind one of the words. -/
structure Skips (source : List Char) (words : List Leaf) (front gap piece rest : List Char) :
    Prop where
  text : source = front ++ (gap ++ (piece ++ rest))
  behind : front = [] ∨ ∃ w ∈ words, w.start + byteCount w.text = byteCount front
  gap : Skipped (piece ++ rest) gap
  piece : comment.width? (piece ++ rest) = some piece.length

/-- The character behind `before` stands in the gap at a place, or in one behind a word. -/
def InGap (words : List Leaf) (here : Cursor) (before : List Char) : Prop :=
  ∃ front s, here.rest = front ++ s ∧
    (front = [] ∨ ∃ w ∈ words, w.start + byteCount w.text = here.offset + byteCount front) ∧
    front.length ≤ before.length ∧ before.length < front.length + gapWidth s

/-- A gap further on, in front of which another one or a word ends. -/
theorem InGap.back {words more : List Leaf} {here there : Cursor} {t before : List Char}
    (h : InGap words there before) (hrest : here.rest = t ++ there.rest)
    (hoffset : there.offset = here.offset + byteCount t)
    (hbegin : gapWidth there.rest = 0 ∨ ∃ w ∈ more, w.start + byteCount w.text = there.offset)
    (hsub : words ⊆ more) : InGap more here (t ++ before) := by
  obtain ⟨front, s, hs, hbehind, hlo, hhi⟩ := h
  refine ⟨t ++ front, s, by rw [hrest, hs, List.append_assoc], .inr ?_, ?_, ?_⟩
  · rw [byteCount_append, ← Nat.add_assoc, ← hoffset]
    rcases hbehind with rfl | ⟨w, hw, hend⟩
    · obtain rfl : there.rest = s := hs
      rcases hbegin with hzero | hword
      · rw [hzero, List.length_nil] at hhi
        omega
      · exact hword
    · exact ⟨w, hsub hw, hend⟩
  · simpa using hlo
  · rw [List.length_append, List.length_append]
    omega

/-- Each character stands in one of the words, or in a gap. -/
theorem Passes.covered_or_inGap {here stop : Cursor} {words : List Leaf} {before after : List Char}
    {c : Char} (h : Passes here words stop) (hend : (skipGap stop).rest = [])
    (hsplit : here.rest = before ++ c :: after) :
    (∃ w ∈ words, w.Covers (here.offset + byteCount before)) ∨ InGap words here before := by
  induction h generalizing before with
  | @stay here =>
    rw [skipGap_rest, List.drop_eq_nil_iff] at hend
    refine .inr ⟨[], here.rest, rfl, .inl rfl, Nat.zero_le _, ?_⟩
    have hlength := congrArg List.length hsplit
    rw [List.length_append, List.length_cons] at hlength
    rw [List.length_nil]
    omega
  | @skip here words stop _ ih =>
    by_cases hlt : before.length < gapWidth here.rest
    · exact .inr ⟨[], here.rest, rfl, .inl rfl, Nat.zero_le _, by simpa using hlt⟩
    have hrest : here.rest = here.rest.take (gapWidth here.rest) ++ (skipGap here).rest := by
      rw [skipGap_rest, List.take_append_drop]
    have hoffset : (skipGap here).offset = here.offset +
        byteCount (here.rest.take (gapWidth here.rest)) := Cursor.advance_offset _ _
    obtain ⟨b, rfl, hsplit'⟩ := exists_append_of_length_le (hrest.symm.trans hsplit)
      (by rw [List.length_take]; omega)
    rcases ih hend hsplit' with ⟨w, hw, hcovers⟩ | hgap
    · refine .inl ⟨w, hw, ?_⟩
      rwa [byteCount_append, ← Nat.add_assoc, ← hoffset]
    · exact .inr (hgap.back hrest hoffset (.inl (gapWidth_skipGap here)) (List.Subset.refl words))
  | @word here t n words stop _ _ _ _ ih =>
    have hrest : here.rest = here.rest.take n ++ (here.advance n).rest := by
      rw [Cursor.advance_rest, List.take_append_drop]
    have hoffset : (here.advance n).offset = here.offset + byteCount (here.rest.take n) :=
      Cursor.advance_offset _ _
    rcases Nat.lt_or_ge before.length (here.rest.take n).length with hlt | hle
    · obtain ⟨b, hb, -⟩ := exists_append_of_length_le (hsplit.symm.trans hrest) hlt.le
      refine .inl ⟨_, List.mem_cons_self, Nat.le_add_right _ _, ?_⟩
      cases b with
      | nil =>
        rw [hb, List.append_nil] at hlt
        exact absurd hlt (Nat.lt_irrefl _)
      | cons d b =>
        have hpos := d.utf8Size_pos
        simp only [hb, byteCount_append, byteCount_cons]
        omega
    · obtain ⟨b, rfl, hsplit'⟩ := exists_append_of_length_le (hrest.symm.trans hsplit) hle
      rcases ih hend hsplit' with ⟨w, hw, hcovers⟩ | hgap
      · refine .inl ⟨w, List.mem_cons_of_mem _ hw, ?_⟩
        rwa [byteCount_append, ← Nat.add_assoc, ← hoffset]
      · exact .inr (hgap.back hrest hoffset (.inr ⟨_, List.mem_cons_self, hoffset.symm⟩)
          (List.subset_cons_self _ words))

/-- A hash in a gap is one of a comment or of a preprocessor line that is skipped. -/
theorem InGap.exists_skips {source before after : List Char} {words : List Leaf}
    (h : InGap words (.start source) before) (hsplit : source = before ++ '#' :: after) :
    ∃ front gap piece rest, Skips source words front gap piece rest ∧
      (front ++ gap).length ≤ before.length ∧
      before.length < (front ++ (gap ++ piece)).length := by
  obtain ⟨front, s, hs, hbehind, hlo, hhi⟩ := h
  rw [Cursor.start, Nat.zero_add] at hbehind
  obtain ⟨gap, piece, rest, rfl, hgap, hpiece, hle, hlt⟩ :=
    exists_piece s (i := before.length - front.length) (by omega)
  have hsource : source = front ++ (gap ++ (piece ++ rest)) := hs
  rw [hsource, ← List.append_assoc] at hsplit
  obtain ⟨b, rfl, heq⟩ := exists_append_of_length_le hsplit (by rw [List.length_append]; omega)
  have hmem : '#' ∈ piece := by
    simp only [List.length_append] at hlt
    obtain ⟨a, rfl, ha⟩ := exists_append_of_length_le heq.symm (by omega)
    cases a with
    | nil =>
      rw [List.append_nil] at hlt
      omega
    | cons d a =>
      obtain ⟨rfl, -⟩ := List.cons.inj ha
      exact List.mem_append_right b List.mem_cons_self
  refine ⟨front, gap, piece, rest, ⟨hsource, hbehind, hgap, hpiece.resolve_left fun hblank => ?_⟩,
    by simp, ?_⟩
  · have hglue := within_blank.forall_mem_take hblank
    rw [List.take_left] at hglue
    cases hglue '#' hmem
  · simp only [List.length_append] at hlt ⊢
    omega

/-! ## What is skipped has no say -/

/-- At each of its words a source is parted into the row in front of it and the row behind. -/
theorem row_at_word {source : List Char} {root : Node} (h : parse source = .ok root) {w : Leaf}
    (hw : w ∈ Node.words [root]) :
    ∃ before after front v, root.texts = before ++ w.text :: after ∧
      source = front ++ (w.text ++ v) ∧ byteCount front = w.start ∧
      RowTo (w.text ++ v) before source ∧ Stands w.text v ∧ Row after v := by
  have hrow := row_of_parse h
  obtain ⟨before, after, hwords⟩ := List.append_of_mem hw
  obtain ⟨stop, hpasses, -, hchain⟩ := passes_of_parse h
  rw [hwords] at hpasses hchain
  rw [Node.texts, hwords, List.map_append, List.map_cons] at hrow ⊢
  obtain ⟨v, hbefore, hstands, hafter⟩ := rowTo_append_iff.1 hrow
  obtain ⟨mid, n, ⟨front, hfront, hoffset⟩, hbefore', -, hstart, -⟩ := hpasses.row_before hchain
  refine ⟨_, _, front, v, rfl, ?_, ?_, hbefore, hstands, hafter⟩
  · rw [hbefore.final_unique hbefore']
    exact hfront
  · rw [hstart, hoffset]
    exact (Nat.zero_add _).symm

/-- The words in front of something that is skipped stay with a blank in its place. -/
theorem RowTo.blanked {front u gap piece rest : List Char} {words : List (List Char)}
    (h : RowTo (u ++ (gap ++ (piece ++ rest))) words (front ++ (u ++ (gap ++ (piece ++ rest)))))
    (hu : IsTokenText u) :
    RowTo (u ++ (gap ++ ' ' :: rest)) words (front ++ (u ++ (gap ++ ' ' :: rest))) := by
  obtain ⟨c, r, rfl, t, hc⟩ := hu.head
  have hglue : ∀ s, Outside isGlue (c :: r ++ gap ++ s) := by
    intro s
    rw [List.append_assoc]
    exact outside_isGlue_of_mayBegin hc (r ++ (gap ++ s))
  have hnew : Outside isKnit (' ' :: rest) := outside_cons.2 rfl
  have hclose := closesNoMore_blank piece rest
  have hgap : gapWidth (c :: (r ++ gap ++ ' ' :: rest)) = 0 := by
    refine gapWidth_eq_zero_change hc ?_ hnew fun _ => hclose
    simpa using h.gapWidth_final
  rw [← List.append_assoc] at h
  obtain ⟨front', hfront, hchanged⟩ :=
    h.change (by simp) (hglue _) (hglue _) hnew hgap (.inr hclose)
  obtain rfl := List.append_cancel_right hfront
  simpa using hchanged

/-- The words of a source are its words still with a blank for something that is skipped. -/
theorem Skips.row {source front gap piece rest : List Char} {root : Node}
    (h : Skips source (Node.words [root]) front gap piece rest) (hparse : parse source = .ok root) :
    Row root.texts (front ++ (gap ++ ' ' :: rest)) := by
  have hdrop := drop_gapWidth_blanked h.gap h.piece
  have hblanked : ∀ {words}, Row words (gap ++ (piece ++ rest)) →
      Row words (gap ++ ' ' :: rest) := by
    intro words hwords
    refine rowTo_drop_gapWidth_iff.1 ?_
    rw [hdrop]
    exact rowTo_drop_gapWidth_iff.2 hwords
  rcases h.behind with rfl | ⟨w, hw, hend⟩
  · have hrow := row_of_parse hparse
    rw [h.text] at hrow
    exact hblanked hrow
  · obtain ⟨before, after, f, v, htexts, hsource, hstart, hbefore, hstands, hafter⟩ :=
      row_at_word hparse hw
    -- The word ends where the text in front of the gap does.
    obtain ⟨rfl, rfl⟩ : front = f ++ w.text ∧ gap ++ (piece ++ rest) = v := by
      refine append_inj_of_byteCount ?_ ?_
      · rw [List.append_assoc, ← hsource, h.text]
      · rw [byteCount_append, hstart, hend]
    rw [hsource] at hbefore
    rw [htexts, List.append_assoc]
    exact rowTo_append_iff.2 ⟨gap ++ ' ' :: rest, hbefore.blanked hstands.isTokenText,
      hstands.change (outside_cons.2 rfl), hblanked hafter⟩

theorem Skips.toTree_eq {source : String} {root : Node} {front gap piece rest : List Char}
    (h : Skips source.toList (Node.words [root]) front gap piece rest)
    (hparse : Source.parse source = .ok root) :
    Source.toTree (String.ofList (front ++ (gap ++ ' ' :: rest))) = Source.toTree source := by
  have hplain := source_parse_eq_ok_iff.1 hparse
  obtain ⟨root', hroot', hrose⟩ := parse_of_row hplain (row_of_parse hplain) (h.row hplain)
  have hparse' : Source.parse (String.ofList (front ++ (gap ++ ' ' :: rest))) = .ok root' := by
    rwa [source_parse_eq_ok_iff, String.toList_ofList]
  rw [source_toTree_eq hparse, source_toTree_eq hparse', Node.toTree, Node.toTree, hrose]

/-- What is skipped from a hash on goes to the end of the line. -/
theorem Skips.directiveBody {source front gap body rest : List Char} {words : List Leaf}
    (h : Skips source words front gap ('#' :: body) rest) : DirectiveBody body rest := by
  rcases width?_alt_eq_some.1 h.piece with hblock | ⟨-, h⟩
  · cases hblock
  · rcases width?_alt_eq_some.1 h with hline | ⟨-, h⟩
    · cases hline
    · obtain ⟨a, b, ha, hb, hlength⟩ := width?_seq_eq_some.1 h
      obtain ⟨-, rfl⟩ := width?_word_eq_some.1 ha
      obtain rfl : b = body.length := by
        change body.length + 1 = 1 + b at hlength
        omega
      have hbody := directiveBody_of_width? hb
      change DirectiveBody ((body ++ rest).take body.length) ((body ++ rest).drop body.length) at hbody
      rwa [List.take_left, List.drop_left] at hbody

/-- Each hash of a source is one of a literal, or it is skipped, with a comment or with what
follows it up to the end of the line, whatever stands in front of it in the line. The tree is
that of the source with a blank in place of what is skipped. -/
theorem hash_in_literal_or_skipped {source : String} {root : Node}
    (h : Source.parse source = .ok root) :
    (∀ before after, source.toList = before ++ '#' :: after →
      (∃ w ∈ Node.words [root], w.Covers (byteCount before) ∧
        (w.token = .constant ∨ w.token = .stringLiteral)) ∨
      ∃ front gap piece rest, Skips source.toList (Node.words [root]) front gap piece rest ∧
        (front ++ gap).length ≤ before.length ∧
        before.length < (front ++ (gap ++ piece)).length) ∧
    ∀ front gap piece rest, Skips source.toList (Node.words [root]) front gap piece rest →
      (∀ body, piece = '#' :: body → DirectiveBody body rest) ∧
      Source.toTree (String.ofList (front ++ (gap ++ ' ' :: rest))) = Source.toTree source := by
  obtain ⟨stop, hpasses, hend, -⟩ := passes_of_parse (source_parse_eq_ok_iff.1 h)
  constructor
  · intro before after hsplit
    rcases hpasses.covered_or_inGap hend hsplit with ⟨w, hw, hcovers⟩ | hgap
    · rw [Cursor.start, Nat.zero_add] at hcovers
      refine .inl ⟨w, hw, hcovers, ?_⟩
      obtain ⟨words, more, hwords⟩ := List.append_of_mem hw
      rw [hwords] at hpasses
      obtain ⟨front, behind, hsource, hstart, hwidth, -⟩ := hpasses.text_eq
      obtain ⟨a, b, -, htext, -⟩ := hcovers.parts hstart (hsource.symm.trans hsplit)
      exact literal_of_mem_hash (hpasses.token_ne w (by simp)) hwidth (by rw [htext]; simp)
    · exact .inr (hgap.exists_skips hsplit)
  · rintro front gap piece rest hskips
    refine ⟨?_, hskips.toTree_eq h⟩
    rintro body rfl
    exact hskips.directiveBody

theorem hash_in_literal_or_skipped_behind_semicolon :
    ∃ root, Source.parse "char c='#';# d" = .ok root ∧
      (∀ before after, "char c='#';# d".toList = before ++ '#' :: after →
        (∃ w ∈ Node.words [root], w.Covers (byteCount before) ∧
          (w.token = .constant ∨ w.token = .stringLiteral)) ∨
        ∃ front gap piece rest,
          Skips "char c='#';# d".toList (Node.words [root]) front gap piece rest ∧
          (front ++ gap).length ≤ before.length ∧
          before.length < (front ++ (gap ++ piece)).length) ∧
      ∀ front gap piece rest,
        Skips "char c='#';# d".toList (Node.words [root]) front gap piece rest →
        (∀ body, piece = '#' :: body → DirectiveBody body rest) ∧
        Source.toTree (String.ofList (front ++ (gap ++ ' ' :: rest))) =
          Source.toTree "char c='#';# d" := by
  have hstop : (Source.parse "char c='#';# d").toOption.map Node.stop = some 14 := by
    decide +kernel
  obtain ⟨root, hparse, -⟩ := exists_ok_of_map hstop
  exact ⟨root, hparse, hash_in_literal_or_skipped hparse⟩

/-- A piece of a gap begins in a line in which no word stands in front of it. -/
def OwnLine (front gap : List Char) : Prop := front = [] ∨ ∃ c ∈ gap, isLineEnd c = true

/-- Not every preprocessor line that is skipped has a line of its own: what follows the hash
behind a declaration is dropped. -/
theorem directive_behind_semicolon : ∃ root, Source.parse "int a; # int b;" = .ok root ∧
    Skips "int a; # int b;".toList (Node.words [root]) "int a;".toList [' '] "# int b;".toList [] ∧
    ¬ OwnLine "int a;".toList [' '] ∧ root.texts = ["int".toList, ['a'], [';']] := by
  have hwords : (Source.parse "int a; # int b;").toOption.map
      (fun root => (Node.words [root]).map fun w => (w.start, w.text)) =
      some [(0, "int".toList), (4, ['a']), (5, [';'])] := by
    decide +kernel
  obtain ⟨root, hparse, hroot⟩ := exists_ok_of_map hwords
  refine ⟨root, hparse, ⟨rfl, .inr ?_, ?_, ?_⟩, ?_, ?_⟩
  · have hlast : (5, [';']) ∈ (Node.words [root]).map fun w => (w.start, w.text) := by
      rw [hroot]
      simp
    obtain ⟨w, hw, heq⟩ := List.mem_map.1 hlast
    obtain ⟨hstart, htext⟩ := Prod.mk.inj heq
    refine ⟨w, hw, ?_⟩
    rw [hstart, htext]
    decide
  · exact @Skipped.cons _ [' '] [] (.inl (by decide +kernel)) .nil
  · decide +kernel
  · rintro (hnil | ⟨c, hc, hend⟩)
    · exact absurd hnil (by simp)
    · rw [List.mem_singleton.1 hc] at hend
      cases hend
  · have htexts := congrArg (List.map Prod.snd) hroot
    rwa [List.map_map] at htexts

end CTree.Parse
