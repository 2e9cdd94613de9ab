import CTree.Proofs.TokenBoundary

/-!
# What follows a gap

Where a gap ends is seen from the gap and the next character. A comment knows its end by
its closing mark or by the end of its line, and white space by the first other character.
So the text behind a gap may change, as long as neither text goes on with white space.
-/
namespace CTree.Lexical
open Pattern

/-- A character by which white space and the end of a line may go on. -/
def isGlue (c : Char) : Bool := " \t\r\n\\".toList.contains c

lemma isGlue_of_isLineEnd {c : Char} (h : isLineEnd c = true) : isGlue c = true := by
  simp only [isLineEnd, Bool.or_eq_true, decide_eq_true_eq] at h
  rcases h with rfl | rfl <;> rfl

lemma within_blank : blank.Within isGlue := by
  refine ⟨fun c hc => ?_, within_text (by decide), within_text (by decide), within_text (by decide),
    within_text (by decide)⟩
  have hall : ∀ c ∈ " \t\r\n".toList, isGlue c = true := by decide
  exact hall c (List.contains_iff_mem.1 hc)

/-! ## Comments up to the end of a line -/

lemma within_lineComment : lineComment.Within fun c => !isLineEnd c :=
  ⟨within_text (by decide), consuming_of_takesSome rfl, fun _ h => h⟩

lemma atLineEnd_of_lineComment {s : List Char} {n : Nat} (h : lineComment.width? s = some n) :
    AtLineEnd (s.drop n) := by
  obtain ⟨a, b, -, hb, rfl⟩ := width?_seq_eq_some.1 h
  rw [← List.drop_drop]
  exact atLineEnd_of_width?_inLine (width?_drop_many (consuming_of_takesSome rfl) hb)

/-- One turn within a preprocessor line. -/
def lineTurn : Pattern := .alt (.seq (.text "\\") lineEnd) inLine

lemma directive_eq : directive = .seq (.text "#") (.many lineTurn) := rfl

lemma consuming_lineTurn : Consuming lineTurn := consuming_of_takesSome (by decide)

lemma atLineEnd_of_directive {s : List Char} {n : Nat} (h : directive.width? s = some n) :
    AtLineEnd (s.drop n) := by
  rw [directive_eq] at h
  obtain ⟨a, b, -, hb, rfl⟩ := width?_seq_eq_some.1 h
  rw [← List.drop_drop]
  exact atLineEnd_of_width?_inLine (width?_alt_eq_none.1 (width?_drop_many consuming_lineTurn hb)).2

lemma width?_lineEnd_eq_none {s : List Char} (h : ∀ c ∈ s.head?, isLineEnd c = false) :
    lineEnd.width? s = none := by
  have hhead : lineEnd.HeadIn isLineEnd :=
    ⟨headIn_text (by decide), headIn_text (by decide), headIn_text (by decide)⟩
  exact hhead.width?_eq_none (consuming_of_takesSome (by decide)) h

/-- The end of a line is seen from the next character. -/
lemma width?_lineEnd_change {u v : List Char} {c : Char}
    (h : lineEnd.width? (u ++ c :: v) = some u.length) (w : List Char) :
    lineEnd.width? (u ++ c :: w) = some u.length := by
  have hend := width?_lineEnd h
  rw [List.take_left] at hend
  rcases hend with rfl | rfl | rfl
  · rfl
  · rfl
  · have hc : '\n' ≠ c := by
      rintro rfl
      cases h
    simp [lineEnd, firstOf, text, width?_alt, width?_word, hc]

/-- A joined line sees no more than the next character. -/
lemma width?_join_change {u v : List Char} {c : Char}
    (h : (Pattern.seq (.text "\\") lineEnd).width? (u ++ c :: v) = some u.length)
    (w : List Char) :
    (Pattern.seq (.text "\\") lineEnd).width? (u ++ c :: w) = some u.length := by
  obtain ⟨a, b, ha, hb, hlength⟩ := width?_seq_eq_some.1 h
  obtain ⟨⟨r, hr⟩, rfl⟩ := width?_word_eq_some.1 ha
  cases u with
  | nil =>
    change 0 = 1 + b at hlength
    omega
  | cons d e =>
    obtain ⟨rfl, rfl⟩ := List.cons.inj hr
    obtain rfl : b = e.length := by
      rw [List.length_cons, Nat.add_comm] at hlength
      exact (Nat.add_left_cancel hlength).symm
    have hend : lineEnd.width? (e ++ c :: w) = some e.length := width?_lineEnd_change hb w
    refine width?_seq_eq_some.2 ⟨1, e.length, rfl, hend, ?_⟩
    rw [List.length_cons, Nat.add_comm]

/-- A turn sees no more than the next character. -/
lemma width?_lineTurn_change {u v : List Char} {c : Char}
    (h : lineTurn.width? (u ++ c :: v) = some u.length) (w : List Char) :
    lineTurn.width? (u ++ c :: w) = some u.length := by
  rcases width?_alt_eq_some.1 h with h | ⟨hjoin, h⟩
  · exact width?_alt_of_some (width?_join_change h w)
  · obtain ⟨d, r, hs, hd, hlength⟩ := width?_one_eq_some.1 h
    obtain ⟨e, rfl⟩ := List.length_eq_one_iff.1 hlength
    obtain ⟨rfl, rfl⟩ : e = d ∧ c :: v = r := by simpa using hs
    refine width?_alt_eq_some.2 (.inr ⟨?_, width?_one_eq_some.2 ⟨e, c :: w, rfl, hd, rfl⟩⟩)
    rcases width?_seq_eq_none.1 hjoin with hno | ⟨a, hback, hend⟩
    · refine width?_seq_eq_none.2 (.inl (width?_word_eq_none.2 ?_))
      rintro ⟨r, hr⟩
      obtain ⟨rfl, -⟩ := List.cons.inj hr
      exact width?_word_eq_none.1 hno ⟨c :: v, rfl⟩
    · obtain ⟨hpre, rfl⟩ := width?_word_eq_some.1 hback
      refine width?_seq_eq_none.2 (.inr ⟨1, width?_word_eq_some.2 ⟨?_, rfl⟩, ?_⟩)
      · exact (List.prefix_of_prefix_length_le hpre (List.prefix_append [e] (c :: v))
          (Nat.le_refl 1)).trans (List.prefix_append _ _)
      · refine width?_lineEnd_eq_none fun k hk => ?_
        exact not_isLineEnd_of_width?_lineEnd hend k hk

lemma width?_lineTurns_change {s : List Char} {n : Nat} (h : (many lineTurn).width? s = some n) :
    ∀ u c v, s = u ++ c :: v → u.length = n →
      ∀ w, (many lineTurn).width? (u ++ c :: w) = some n := by
  refine many_induction (motive := fun s n => ∀ u c v, s = u ++ c :: v → u.length = n →
    ∀ w, (many lineTurn).width? (u ++ c :: w) = some n) consuming_lineTurn ?_ ?_ h
  · rintro s hnone u c v rfl hlength w
    obtain rfl := List.eq_nil_of_length_eq_zero hlength
    refine width?_many_of_none ?_
    have hend : isLineEnd c = true :=
      atLineEnd_of_width?_inLine (width?_alt_eq_none.1 hnone).2 c rfl
    refine width?_alt_eq_none.2 ⟨width?_seq_eq_none.2 (.inl (width?_word_eq_none.2 ?_)), ?_⟩
    · rintro ⟨r, hr⟩
      obtain ⟨rfl, -⟩ := List.cons.inj hr
      cases hend
    · simp [inLine, hend]
  · rintro s a b ha hb ih u c v rfl hlength w
    have hdrop : (u ++ c :: v).drop a = u.drop a ++ c :: v :=
      List.drop_append_of_le_length (by omega)
    have hmore := ih (u.drop a) c v hdrop (by rw [List.length_drop]; omega) w
    have hlen : (u.take a).length = a := by rw [List.length_take]; omega
    have hturn : lineTurn.width? (u.take a ++ (u.drop a ++ c :: w)) = some (u.take a).length := by
      have hhere : lineTurn.width? (u.take a ++ (u.drop a ++ c :: v)) =
          some (u.take a).length := by
        rw [← List.append_assoc, List.take_append_drop, hlen]
        exact ha
      cases hu : u.drop a with
      | nil =>
        rw [hu] at hhere
        exact width?_lineTurn_change hhere w
      | cons d r =>
        rw [hu] at hhere
        exact width?_lineTurn_change hhere _
    rw [hlen, ← List.append_assoc, List.take_append_drop] at hturn
    rw [width?_many_of_some consuming_lineTurn hturn,
      List.drop_append_of_le_length (by omega), hmore]
    rfl

/-- A preprocessor line sees no more than the character that ends it. -/
lemma width?_directive_change {u v : List Char} {c : Char}
    (h : directive.width? (u ++ c :: v) = some u.length) (w : List Char) :
    directive.width? (u ++ c :: w) = some u.length := by
  rw [directive_eq] at h ⊢
  obtain ⟨a, b, ha, hb, hlength⟩ := width?_seq_eq_some.1 h
  obtain ⟨⟨r, hr⟩, rfl⟩ := width?_word_eq_some.1 ha
  cases u with
  | nil =>
    change 0 = 1 + b at hlength
    omega
  | cons d u =>
    obtain ⟨rfl, rfl⟩ := List.cons.inj hr
    have hmore := width?_lineTurns_change hb u c v rfl
      (by change u.length + 1 = 1 + b at hlength; omega) w
    refine width?_seq_eq_some.2 ⟨1, b, width?_word_eq_some.2 ⟨⟨u ++ c :: w, rfl⟩, rfl⟩, hmore, ?_⟩
    exact hlength

/-! ## Gaps -/

/-- A comment that ends in front of a text that is no gap ends there in front of any text. -/
theorem width?_comment_change {g y : List Char} {n : Nat} (h : comment.width? (g ++ y) = some n)
    (hn : n ≤ g.length) (hne : y ≠ []) (hy : Outside isGlue y) (z : List Char) :
    comment.width? (g ++ z) = some n := by
  obtain ⟨u, r, rfl, rfl⟩ : ∃ u r, g = u ++ r ∧ u.length = n :=
    ⟨g.take n, g.drop n, (List.take_append_drop n g).symm, by rw [List.length_take]; omega⟩
  rw [List.append_assoc] at h ⊢
  -- A line that ends behind the comment ends within the gap.
  have hinside : AtLineEnd ((u ++ (r ++ y)).drop u.length) →
      ∃ c r', r = c :: r' ∧ isLineEnd c = true := by
    intro hend
    rw [List.drop_left] at hend
    cases r with
    | cons c r => exact ⟨c, r, rfl, hend c rfl⟩
    | nil =>
      cases y with
      | nil => exact absurd rfl hne
      | cons c y =>
        have hglue := isGlue_of_isLineEnd (hend c rfl)
        rw [outside_cons.1 hy] at hglue
        cases hglue
  rcases width?_alt_eq_some.1 h with h | ⟨-, h⟩
  · obtain ⟨body, rest, hs, hbody, hlength⟩ := blockComment_parts h
    have hsplit : u ++ (r ++ y) = '/' :: '*' :: (body ++ ['*', '/']) ++ rest := by
      rw [hs]
      simp
    obtain ⟨rfl, -⟩ := List.append_inj hsplit (by simp [hlength])
    have hwidth := width?_blockComment hbody (r ++ z)
    refine width?_alt_of_some ?_
    simpa using hwidth
  · rcases width?_alt_eq_some.1 h with h | ⟨-, h⟩
    · obtain ⟨c, r, rfl, hc⟩ := hinside (atLineEnd_of_lineComment h)
      have hout : ∀ s, Outside (fun c => !isLineEnd c) (c :: r ++ s) :=
        fun s => outside_cons.2 (by rw [hc]; rfl)
      rw [within_lineComment.width?_append (hout y)] at h
      have hline := (within_lineComment.width?_append (hout z) u).trans h
      have hblock : blockComment.width? (u ++ (c :: r ++ z)) = none := by
        obtain ⟨a, b, ha, -, -⟩ := width?_seq_eq_some.1 h
        obtain ⟨⟨e, rfl⟩, -⟩ := width?_word_eq_some.1 ha
        rfl
      exact width?_alt_eq_some.2 (.inr ⟨hblock, width?_alt_of_some hline⟩)
    · obtain ⟨c, r, rfl, -⟩ := hinside (atLineEnd_of_directive h)
      have hdirective := width?_directive_change h (r ++ z)
      obtain ⟨a, b, ha, -, -⟩ := width?_seq_eq_some.1 hdirective
      obtain ⟨⟨e, he⟩, -⟩ := width?_word_eq_some.1 ha
      rw [List.cons_append]
      refine width?_alt_eq_some.2 (.inr ⟨?_, width?_alt_eq_some.2 (.inr ⟨?_, hdirective⟩)⟩)
      · rw [← he]
        rfl
      · rw [← he]
        rfl

/-- A gap ends where it did when the text behind it changes. -/
theorem gapWidth_change {g y z : List Char} (h : gapWidth (g ++ y) = g.length) (hne : y ≠ [])
    (hy : Outside isGlue y) (hz : Outside isGlue z) :
    gapWidth (g ++ z) = g.length + gapWidth z := by
  induction hm : g.length using Nat.strongRecOn generalizing g with
  | ind m ih =>
    subst hm
    have hstep : ∀ n, 0 < n → gapWidth (g ++ y) = n + gapWidth ((g ++ y).drop n) →
        (n ≤ g.length → gapWidth (g ++ z) = n + gapWidth ((g ++ z).drop n)) →
        gapWidth (g ++ z) = g.length + gapWidth z := by
      intro n hpos heq hz'
      have hle : n ≤ g.length := by omega
      rw [List.drop_append_of_le_length hle] at heq
      have hrest := ih (g.drop n).length (by rw [List.length_drop]; omega)
        (by rw [List.length_drop]; omega) rfl
      rw [hz' hle, List.drop_append_of_le_length hle, hrest, List.length_drop]
      omega
    cases hb : blank.width? (g ++ y) with
    | some n =>
      refine hstep n (consuming_blank _ n hb) (gapWidth_of_blank hb) fun _ => ?_
      refine gapWidth_of_blank ?_
      rw [within_blank.width?_append hz, ← within_blank.width?_append hy]
      exact hb
    | none =>
      cases hc : comment.width? (g ++ y) with
      | some n =>
        refine hstep n (consuming_comment _ n hc) (gapWidth_of_comment hc) fun hle => ?_
        exact gapWidth_of_comment (width?_comment_change hc hle hne hy z)
      | none =>
        have hzero := gapWidth_eq_zero_iff.2 ⟨hb, hc⟩
        obtain rfl := List.eq_nil_of_length_eq_zero (h.symm.trans hzero)
        rw [List.nil_append, List.length_nil, Nat.zero_add]

end CTree.Lexical
