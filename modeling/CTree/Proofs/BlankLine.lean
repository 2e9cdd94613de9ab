import CTree.Proofs.GapChange
import CTree.Proofs.LayoutIndependence

/-!
# A blank line behind a gap

A gap that ends with its text may go on when a text is put behind it: a comment goes on to
the end of its line, and a backslash at the end of a preprocessor line joins the next line.
Two line ends in between are enough to keep the gap apart from what follows: the first one
may be taken up by the gap, and at the second one every line is at its end.
-/
namespace CTree.Lexical
open Pattern

/-- A joined line takes up the next line end at most if nothing follows. -/
lemma width?_join_lineFeed {s : List Char}
    (h : (Pattern.seq (.text "\\") lineEnd).width? s = some s.length) (r : List Char) :
    ∃ e ≤ 1, (Pattern.seq (.text "\\") lineEnd).width? (s ++ '\n' :: r) = some (s.length + e) := by
  obtain ⟨a, b, ha, hb, hlength⟩ := width?_seq_eq_some.1 h
  obtain ⟨⟨t, rfl⟩, rfl⟩ := width?_word_eq_some.1 ha
  rw [List.length_append] at hlength
  have hend := width?_lineEnd hb
  rw [List.drop_left, List.take_of_length_le (by omega)] at hend
  rcases hend with rfl | rfl | rfl
  · exact ⟨0, by omega, rfl⟩
  · exact ⟨0, by omega, rfl⟩
  · exact ⟨1, by omega, rfl⟩

/-- The last turn within a preprocessor line takes up the next line end at most. -/
lemma width?_lineTurn_lineFeed {s : List Char} (h : lineTurn.width? s = some s.length)
    (r : List Char) : ∃ e ≤ 1, lineTurn.width? (s ++ '\n' :: r) = some (s.length + e) := by
  rcases width?_alt_eq_some.1 h with h | ⟨-, h⟩
  · obtain ⟨e, he, hjoin⟩ := width?_join_lineFeed h r
    exact ⟨e, he, width?_alt_of_some hjoin⟩
  · obtain ⟨c, t, rfl, hc, hlength⟩ := width?_one_eq_some.1 h
    obtain rfl : t = [] := List.eq_nil_of_length_eq_zero (by
      rw [List.length_cons] at hlength
      omega)
    by_cases hback : c = '\\'
    · subst hback
      exact ⟨1, by omega, rfl⟩
    · refine ⟨0, by omega, width?_alt_eq_some.2 (.inr ⟨?_, ?_⟩)⟩
      · refine width?_seq_eq_none.2 (.inl (width?_word_eq_none.2 ?_))
        rintro ⟨u, hu⟩
        exact hback (List.cons.inj hu).1.symm
      · exact width?_one_eq_some.2 ⟨c, _, rfl, hc, rfl⟩

lemma width?_lineTurn_nil (r : List Char) : lineTurn.width? ('\n' :: r) = none := rfl

lemma width?_lineTurns_blankLine {s : List Char} {n : Nat}
    (h : (many lineTurn).width? s = some n) (hn : n = s.length) (r : List Char) :
    ∃ e ≤ 1, (many lineTurn).width? (s ++ '\n' :: '\n' :: r) = some (s.length + e) := by
  revert hn
  refine many_induction (motive := fun s n => n = s.length →
    ∃ e ≤ 1, (many lineTurn).width? (s ++ '\n' :: '\n' :: r) = some (s.length + e))
    consuming_lineTurn ?_ ?_ h
  · rintro s - hs
    obtain rfl := List.eq_nil_of_length_eq_zero hs.symm
    exact ⟨0, by omega, width?_many_of_none (width?_lineTurn_nil _)⟩
  · intro s a b ha _ ih hs
    have hle := width?_le_length ha
    have hlength : (s.drop a).length = b := by rw [List.length_drop]; omega
    obtain ⟨e, he, hmore⟩ := ih hlength.symm
    cases hdrop : s.drop a with
    | cons c t =>
      have hlen : (s.take a).length = a := by rw [List.length_take]; omega
      have hsplit : ∀ w, s ++ w = s.take a ++ (c :: (t ++ w)) := by
        intro w
        rw [← List.cons_append, ← hdrop, ← List.append_assoc, List.take_append_drop]
      have hturn : lineTurn.width? (s ++ '\n' :: '\n' :: r) = some a := by
        have hhere : lineTurn.width? (s.take a ++ c :: t) = some (s.take a).length := by
          rw [← hdrop, List.take_append_drop, hlen]
          exact ha
        rw [hsplit, width?_lineTurn_change hhere, hlen]
      refine ⟨e, he, ?_⟩
      rw [width?_many_of_some consuming_lineTurn hturn, List.drop_append_of_le_length hle, hmore,
        Option.map_some, hlength, ← hs, Nat.add_assoc]
    | nil =>
      have hzero : b = 0 := by rw [← hlength, hdrop]; rfl
      obtain rfl : a = s.length := by omega
      obtain ⟨e, he, hturn⟩ := width?_lineTurn_lineFeed ha ('\n' :: r)
      refine ⟨e, he, ?_⟩
      have hstop : lineTurn.width? (('\n' :: '\n' :: r).drop e) = none := by
        obtain rfl | rfl : e = 0 ∨ e = 1 := by omega
        · rfl
        · rfl
      rw [width?_many_of_some consuming_lineTurn hturn, ← List.drop_drop, List.drop_left,
        width?_many_of_none hstop]
      rfl

/-- A preprocessor line at the end of a text takes up the next line end at most. -/
lemma width?_directive_blankLine {s : List Char} (h : directive.width? s = some s.length)
    (r : List Char) :
    ∃ e ≤ 1, directive.width? (s ++ '\n' :: '\n' :: r) = some (s.length + e) := by
  rw [directive_eq] at h ⊢
  obtain ⟨a, b, ha, hb, hlength⟩ := width?_seq_eq_some.1 h
  obtain ⟨⟨t, rfl⟩, rfl⟩ := width?_word_eq_some.1 ha
  rw [List.drop_left] at hb
  rw [List.length_append] at hlength ⊢
  obtain ⟨e, he, hmore⟩ := width?_lineTurns_blankLine hb (by omega) r
  refine ⟨e, he, width?_seq_eq_some.2 ⟨_, t.length + e, ?_, ?_, Nat.add_assoc ..⟩⟩
  · rw [List.append_assoc]
    exact width?_word_eq_some.2 ⟨List.prefix_append _ _, rfl⟩
  · rw [List.append_assoc, List.drop_left]
    exact hmore

/-! ## Gaps -/

/-- The pattern takes what it took when a blank line is put behind its text, and, where it
took all of the text, the next line end at most. -/
def HeldByBlankLine (p : Pattern) : Prop :=
  ∀ g n s, p.width? g = some n →
    ∃ e ≤ 1, (n < g.length → e = 0) ∧ p.width? (g ++ '\n' :: '\n' :: s) = some (n + e)

/-- A pattern that sees no more than the next character, and the next line end at most. -/
lemma heldByBlankLine_of_change {p : Pattern}
    (hchange : ∀ u v c, p.width? (u ++ c :: v) = some u.length →
      ∀ w, p.width? (u ++ c :: w) = some u.length)
    (hend : ∀ g, p.width? g = some g.length →
      ∀ s, ∃ e ≤ 1, p.width? (g ++ '\n' :: '\n' :: s) = some (g.length + e)) :
    HeldByBlankLine p := by
  intro g n s h
  rcases Nat.lt_or_ge n g.length with hlt | hge
  · obtain ⟨u, c, v, rfl, rfl⟩ : ∃ u c v, g = u ++ c :: v ∧ u.length = n := by
      refine ⟨g.take n, g[n], g.drop (n + 1), ?_, by rw [List.length_take]; omega⟩
      rw [← List.drop_eq_getElem_cons hlt, List.take_append_drop]
    refine ⟨0, by omega, fun _ => rfl, ?_⟩
    rw [List.append_assoc, List.cons_append]
    exact hchange u v c h _
  · obtain rfl : n = g.length := Nat.le_antisymm (width?_le_length h) hge
    obtain ⟨e, he, hwidth⟩ := hend g h s
    exact ⟨e, he, fun hlt => absurd hlt (Nat.lt_irrefl _), hwidth⟩

/-- A choice, where a match of the second pattern is none of the first. -/
lemma HeldByBlankLine.alt {p q : Pattern} (hp : HeldByBlankLine p) (hq : HeldByBlankLine q)
    (hno : ∀ g n, q.width? g = some n → ∀ r, p.width? (g ++ r) = none) :
    HeldByBlankLine (.alt p q) := by
  intro g n s h
  rcases width?_alt_eq_some.1 h with h | ⟨-, h⟩
  · obtain ⟨e, he, hzero, hwidth⟩ := hp g n s h
    exact ⟨e, he, hzero, width?_alt_of_some hwidth⟩
  · obtain ⟨e, he, hzero, hwidth⟩ := hq g n s h
    exact ⟨e, he, hzero, width?_alt_eq_some.2 (.inr ⟨hno g n h _, hwidth⟩)⟩

/-- What begins with a word is read where the word stands. -/
lemma prefix_of_width?_seq_text {t : String} {q : Pattern} {g : List Char} {n : Nat}
    (h : (Pattern.seq (.text t) q).width? g = some n) : t.toList <+: g := by
  obtain ⟨a, b, ha, -⟩ := width?_seq_eq_some.1 h
  exact (width?_word_eq_some.1 ha).1

lemma heldByBlankLine_directive : HeldByBlankLine directive :=
  heldByBlankLine_of_change (fun _ _ _ => width?_directive_change)
    fun _ => width?_directive_blankLine

lemma heldByBlankLine_blank : HeldByBlankLine blank := by
  refine .alt ?_ ?_ ?_
  · intro g n s h
    obtain ⟨c, t, rfl, hc, rfl⟩ := width?_one_eq_some.1 h
    exact ⟨0, by omega, fun _ => rfl, width?_one_eq_some.2 ⟨c, _, rfl, hc, rfl⟩⟩
  · exact heldByBlankLine_of_change (fun _ _ _ => width?_join_change)
      fun _ h s => width?_join_lineFeed h ('\n' :: s)
  · intro g n h r
    obtain ⟨t, rfl⟩ := prefix_of_width?_seq_text h
    rfl

lemma heldByBlankLine_blockComment : HeldByBlankLine blockComment := by
  intro g n s h
  obtain ⟨body, rest, rfl, hbody, rfl⟩ := blockComment_parts h
  refine ⟨0, by omega, fun _ => rfl, ?_⟩
  have hwidth := width?_blockComment hbody (rest ++ '\n' :: '\n' :: s)
  simpa using hwidth

lemma heldByBlankLine_lineComment : HeldByBlankLine lineComment := by
  intro g n s h
  refine ⟨0, by omega, fun _ => rfl, ?_⟩
  have hend := atLineEnd_of_lineComment h
  -- The line ends behind the comment, within the text or at the blank line.
  have hout : Outside (fun c => !isLineEnd c) (g.drop n) := by
    intro c hc
    show (!isLineEnd c) = false
    rw [hend c hc, Bool.not_true]
  have hout' : Outside (fun c => !isLineEnd c) (g.drop n ++ '\n' :: '\n' :: s) := by
    cases hdrop : g.drop n with
    | nil => exact outside_cons.2 rfl
    | cons c t =>
      rw [hdrop] at hout
      exact outside_cons.2 (outside_cons.1 hout)
  calc lineComment.width? (g ++ '\n' :: '\n' :: s)
      = lineComment.width? (g.take n ++ (g.drop n ++ '\n' :: '\n' :: s)) := by
        rw [← List.append_assoc, List.take_append_drop]
    _ = lineComment.width? (g.take n ++ g.drop n) := by
        rw [within_lineComment.width?_append hout', within_lineComment.width?_append hout]
    _ = some n := by rw [List.take_append_drop, h]

lemma heldByBlankLine_comment : HeldByBlankLine comment := by
  have hlines : HeldByBlankLine (.alt lineComment directive) := by
    refine heldByBlankLine_lineComment.alt heldByBlankLine_directive fun g n h r => ?_
    obtain ⟨t, rfl⟩ := prefix_of_width?_seq_text h
    rfl
  refine heldByBlankLine_blockComment.alt hlines fun g n h r => ?_
  rcases width?_alt_eq_some.1 h with h | ⟨-, h⟩
  · obtain ⟨t, rfl⟩ := prefix_of_width?_seq_text h
    rfl
  · obtain ⟨t, rfl⟩ := prefix_of_width?_seq_text h
    rfl

/-- Part of a blank line in front of a gap. -/
lemma gapWidth_drop_blankLine {e : Nat} (he : e ≤ 1) (s : List Char) :
    e + gapWidth (('\n' :: '\n' :: s).drop e) = 2 + gapWidth s := by
  have hblank := gapWidth_blank (c := '\n') (by decide)
  obtain rfl | rfl : e = 0 ∨ e = 1 := by omega
  · rw [List.drop_zero, hblank, hblank]
    omega
  · rw [List.drop_succ_cons, List.drop_zero, hblank]
    omega

/-- A gap that goes up to the end of its text is kept apart by a blank line from what
follows. -/
theorem gapWidth_blankLine {g : List Char} (h : gapWidth g = g.length) (s : List Char) :
    gapWidth (g ++ '\n' :: '\n' :: s) = g.length + 2 + gapWidth s := by
  induction hm : g.length using Nat.strongRecOn generalizing g with
  | ind m ih =>
    subst hm
    -- A piece of the gap goes on to the blank line or ends in front of another one.
    have hpiece : ∀ {p : Pattern} {n}, p.width? g = some n → 0 < n → HeldByBlankLine p →
        (∀ {u n}, p.width? u = some n → gapWidth u = n + gapWidth (u.drop n)) →
        gapWidth (g ++ '\n' :: '\n' :: s) = g.length + 2 + gapWidth s := by
      intro p n hn hpos hheld hgap
      have hle := width?_le_length hn
      obtain ⟨e, he, hzero, hwidth⟩ := hheld g n s hn
      rw [hgap hwidth]
      rcases Nat.lt_or_ge n g.length with hlt | hge
      · obtain rfl := hzero hlt
        have hmore := hgap hn
        have hrest := ih (g.drop n).length (by rw [List.length_drop]; omega)
          (by rw [List.length_drop]; omega) rfl
        rw [Nat.add_zero, List.drop_append_of_le_length hle, hrest, List.length_drop]
        omega
      · obtain rfl : n = g.length := Nat.le_antisymm hle hge
        rw [← List.drop_drop, List.drop_left, Nat.add_assoc, gapWidth_drop_blankLine he,
          Nat.add_assoc]
    cases hb : blank.width? g with
    | some n => exact hpiece hb (consuming_blank _ n hb) heldByBlankLine_blank gapWidth_of_blank
    | none =>
      cases hc : comment.width? g with
      | some n =>
        exact hpiece hc (consuming_comment _ n hc) heldByBlankLine_comment gapWidth_of_comment
      | none =>
        have hzero := gapWidth_eq_zero_iff.2 ⟨hb, hc⟩
        obtain rfl := List.eq_nil_of_length_eq_zero (h.symm.trans hzero)
        have hblank := gapWidth_drop_blankLine (Nat.zero_le 1) s
        rw [Nat.zero_add, List.drop_zero] at hblank
        rw [List.nil_append, List.length_nil, Nat.zero_add, hblank]

end CTree.Lexical
