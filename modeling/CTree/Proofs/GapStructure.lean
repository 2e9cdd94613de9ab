import CTree.Lexical.Gap
import CTree.Proofs.PatternWidth

/-!
# What a gap consists of

A gap is a sequence of pieces: white space, joined lines, comments and
preprocessor lines. Where a piece ends may depend on what follows it, so the
judgements `GapPiece` and `Gap` are about a text in front of the rest of the
source. A gap is as long as it can be, hence skipping twice is skipping once.
-/
namespace CTree.Lexical
open Pattern

/-- The ways of ending a line. -/
def IsLineEnd (s : List Char) : Prop := s = ['\n'] ∨ s = ['\r', '\n'] ∨ s = ['\r']

/-- At the end of the text or in front of a line end. -/
def AtLineEnd (rest : List Char) : Prop := ∀ c ∈ rest.head?, isLineEnd c = true

/-- The text of a preprocessor line behind its mark. -/
inductive DirectiveBody : List Char → List Char → Prop
  | nil {rest} : AtLineEnd rest → DirectiveBody [] rest
  | char {c body rest} : isLineEnd c = false →
      (c = '\\' → ∀ d ∈ (body ++ rest).head?, isLineEnd d = false) →
      DirectiveBody body rest → DirectiveBody (c :: body) rest
  | join {e body rest} : IsLineEnd e → DirectiveBody body rest →
      DirectiveBody ('\\' :: e ++ body) rest

/-- One piece of a gap, in front of a rest of the text. -/
inductive GapPiece : List Char → List Char → Prop
  | blank {c rest} : c ∈ [' ', '\t', '\r', '\n'] → GapPiece [c] rest
  | join {e rest} : IsLineEnd e → GapPiece ('\\' :: e) rest
  | blockComment {body rest} : ¬ ['*', '/'] <:+: body →
      GapPiece ('/' :: '*' :: (body ++ ['*', '/'])) rest
  | lineComment {body rest} : (∀ c ∈ body, isLineEnd c = false) → AtLineEnd rest →
      GapPiece ('/' :: '/' :: body) rest
  | directive {body rest} : DirectiveBody body rest → GapPiece ('#' :: body) rest

/-- Any number of pieces in a row. -/
inductive Gap : List Char → List Char → Prop
  | nil {rest} : Gap [] rest
  | cons {piece more rest} : GapPiece piece (more ++ rest) → Gap more rest →
      Gap (piece ++ more) rest

theorem GapPiece.gap {piece rest : List Char} (h : GapPiece piece rest) : Gap piece rest := by
  have hgap : Gap (piece ++ []) rest := .cons (by simpa using h) .nil
  simpa using hgap

theorem Gap.append {g h rest : List Char} (hg : Gap g (h ++ rest)) (hh : Gap h rest) :
    Gap (g ++ h) rest := by
  generalize hr : h ++ rest = r at hg
  induction hg with
  | nil => exact hh
  | cons hpiece _ ih =>
    subst hr
    rw [List.append_assoc]
    exact .cons (by simpa using hpiece) (ih rfl)

/-! ## Every match is made of pieces -/

/-- What the pattern takes is a gap in front of what it leaves. -/
def TakesGap (p : Pattern) : Prop :=
  ∀ s n, p.width? s = some n → Gap (s.take n) (s.drop n)

theorem TakesGap.seq {p q : Pattern} (hp : TakesGap p) (hq : TakesGap q) :
    TakesGap (.seq p q) := by
  intro s n h
  obtain ⟨a, b, ha, hb, rfl⟩ := width?_seq_eq_some.1 h
  have hfirst := hp s a ha
  have hsecond := hq _ b hb
  rw [List.drop_drop] at hsecond
  have hsplit : s.drop a = (s.drop a).take b ++ s.drop (a + b) := by
    rw [← List.drop_drop, List.take_append_drop]
  rw [hsplit] at hfirst
  rw [List.take_add]
  exact hfirst.append hsecond

theorem TakesGap.alt {p q : Pattern} (hp : TakesGap p) (hq : TakesGap q) :
    TakesGap (.alt p q) := by
  intro s n h
  rcases width?_alt_eq_some.1 h with h | ⟨-, h⟩
  · exact hp s n h
  · exact hq s n h

theorem TakesGap.many {p : Pattern} (hc : Consuming p) (hp : TakesGap p) :
    TakesGap (.many p) := by
  intro s n h
  refine many_induction (motive := fun s n => Gap (s.take n) (s.drop n)) hc ?_ ?_ h
  · intro s _
    simpa using Gap.nil
  · intro s a b ha hb ih
    have hfirst := hp s a ha
    have hsplit : s.drop a = (s.drop a).take b ++ s.drop (a + b) := by
      rw [← List.drop_drop, List.take_append_drop]
    rw [hsplit] at hfirst
    rw [List.drop_drop] at ih
    rw [List.take_add]
    exact hfirst.append ih

theorem width?_lineEnd {s : List Char} {n : Nat} (h : lineEnd.width? s = some n) :
    IsLineEnd (s.take n) := by
  simp only [lineEnd, firstOf, width?_alt_eq_some, text, width?_word_eq_some] at h
  rcases h with ⟨⟨r, rfl⟩, rfl⟩ | ⟨-, ⟨⟨r, rfl⟩, rfl⟩ | ⟨-, ⟨r, rfl⟩, rfl⟩⟩
  · exact .inl (by simp)
  · exact .inr (.inl (by simp))
  · exact .inr (.inr (by simp))

/-- No line end is missed: the pattern fails only inside of a line. -/
theorem not_isLineEnd_of_width?_lineEnd {s : List Char} (h : lineEnd.width? s = none) :
    ∀ c ∈ s.head?, isLineEnd c = false := by
  simp only [lineEnd, firstOf, width?_alt_eq_none, text, width?_word_eq_none] at h
  intro c hc
  cases s with
  | nil => simp at hc
  | cons d r =>
    obtain rfl : d = c := by simpa using hc
    by_contra hd
    simp only [isLineEnd, Bool.not_eq_false, Bool.or_eq_true, decide_eq_true_eq] at hd
    rcases hd with rfl | rfl
    · exact h.1 ⟨r, rfl⟩
    · exact h.2.2 ⟨r, rfl⟩

theorem atLineEnd_of_width?_inLine {s : List Char} (h : inLine.width? s = none) :
    AtLineEnd s := by
  intro c hc
  cases s with
  | nil => simp at hc
  | cons d r =>
    obtain rfl : d = c := by simpa using hc
    simpa [inLine] using h

theorem takesGap_blank : TakesGap blank := by
  intro s n h
  refine GapPiece.gap ?_
  rcases width?_alt_eq_some.1 h with h | ⟨-, h⟩
  · obtain ⟨c, r, rfl, hc, rfl⟩ := width?_one_eq_some.1 h
    exact .blank (by simpa using hc)
  · obtain ⟨a, b, ha, hb, rfl⟩ := width?_seq_eq_some.1 h
    obtain ⟨⟨r, rfl⟩, rfl⟩ := width?_word_eq_some.1 ha
    rw [List.take_add]
    have hend := width?_lineEnd hb
    simpa using GapPiece.join hend

/-- The loop inside of a block comment passes no closing mark. -/
theorem not_infix_of_width?_many {s : List Char} {n : Nat}
    (h : (many (.seq (.absent (.text "*/")) .any)).width? s = some n) :
    ¬ ['*', '/'] <:+: s.take n := by
  have hc : Consuming (.seq (.absent (.text "*/")) .any) := consuming_of_takesSome rfl
  have hpos : ∀ i < n, ¬ ['*', '/'] <+: s.drop i := by
    refine many_induction (motive := fun s n => ∀ i < n, ¬ ['*', '/'] <+: s.drop i) hc ?_ ?_ h
    · intro s _ i hi
      omega
    · intro s a b ha _ ih i hi
      obtain ⟨a₁, a₂, hbar, hany, rfl⟩ := width?_seq_eq_some.1 ha
      obtain ⟨hno, rfl⟩ := width?_absent_eq_some.1 hbar
      obtain ⟨c, r, hs, -, rfl⟩ := width?_one_eq_some.1 hany
      rcases Nat.eq_zero_or_pos i with rfl | hi'
      · exact width?_word_eq_none.1 hno
      · have hnext := ih (i - 1) (by omega)
        rw [List.drop_drop] at hnext
        rwa [show 0 + 1 + (i - 1) = i by omega] at hnext
  rintro ⟨before, after, heq⟩
  have hlen : before.length < n := by
    have hl := congrArg List.length heq
    simp only [List.length_append, List.length_cons, List.length_nil, List.length_take] at hl
    omega
  refine hpos before.length hlen ⟨after ++ s.drop n, ?_⟩
  calc ['*', '/'] ++ (after ++ s.drop n)
      = (before ++ ['*', '/'] ++ after ++ s.drop n).drop before.length := by simp
    _ = s.drop before.length := by rw [heq, List.take_append_drop]

/-- A comment ends with its first closing mark. -/
theorem width?_comment_body {body : List Char} (h : ¬ ['*', '/'] <:+: body) (s : List Char) :
    (many (.seq (.absent (.text "*/")) .any)).width? (body ++ ('*' :: '/' :: s)) =
      some body.length := by
  have hc : Consuming (.seq (.absent (.text "*/")) .any) := consuming_of_takesSome rfl
  induction body with
  | nil =>
    refine width?_many_of_none (width?_seq_eq_none.2 (.inl ?_))
    rfl
  | cons c body ih =>
    have hbody : ¬ ['*', '/'] <:+: body := fun hin =>
      h (hin.trans (List.suffix_cons c body).isInfix)
    have hmark : ¬ ['*', '/'] <+: c :: body ++ ('*' :: '/' :: s) := by
      intro hpre
      rw [List.cons_append, List.cons_prefix_cons] at hpre
      obtain ⟨rfl, hpre⟩ := hpre
      cases body with
      | nil => cases (List.cons_prefix_cons.1 hpre).1
      | cons d body =>
        obtain ⟨rfl, -⟩ := List.cons_prefix_cons.1 hpre
        exact h ⟨[], body, rfl⟩
    have hstep : (Pattern.seq (.absent (.text "*/")) .any).width?
        (c :: body ++ ('*' :: '/' :: s)) = some 1 := by
      refine width?_seq_eq_some.2 ⟨0, 1, width?_absent_eq_some.2 ⟨?_, rfl⟩, rfl, rfl⟩
      exact width?_word_eq_none.2 hmark
    rw [width?_many_of_some hc hstep, List.cons_append, List.drop_one, List.tail_cons, ih hbody,
      Option.map_some, List.length_cons, Nat.add_comm]

theorem width?_blockComment {body : List Char} (h : ¬ ['*', '/'] <:+: body) (s : List Char) :
    blockComment.width? ('/' :: '*' :: (body ++ ('*' :: '/' :: s))) = some (body.length + 4) := by
  refine width?_seq_eq_some.2 ⟨2, body.length + 2, rfl, ?_, by omega⟩
  refine width?_seq_eq_some.2 ⟨body.length, 2, width?_comment_body h s, ?_, rfl⟩
  rw [List.drop_succ_cons, List.drop_succ_cons, List.drop_zero, List.drop_left]
  rfl

/-- A block comment has its first closing mark at its end. -/
theorem blockComment_parts {s : List Char} {n : Nat} (h : blockComment.width? s = some n) :
    ∃ body rest, s = '/' :: '*' :: (body ++ ('*' :: '/' :: rest)) ∧ ¬ ['*', '/'] <:+: body ∧
      n = body.length + 4 := by
  obtain ⟨a, b, ha, hb, rfl⟩ := width?_seq_eq_some.1 h
  obtain ⟨⟨r, rfl⟩, rfl⟩ := width?_word_eq_some.1 ha
  obtain ⟨c, d, hc, hd, rfl⟩ := width?_seq_eq_some.1 hb
  obtain ⟨⟨u, hu⟩, rfl⟩ := width?_word_eq_some.1 hd
  have hbody := not_infix_of_width?_many hc
  have hle := width?_le_length hc
  rw [List.drop_left] at hc hu hbody hle
  refine ⟨r.take c, u, ?_, hbody, ?_⟩
  · calc "/*".toList ++ r = "/*".toList ++ (r.take c ++ r.drop c) := by rw [List.take_append_drop]
      _ = '/' :: '*' :: (r.take c ++ ('*' :: '/' :: u)) := by rw [← hu]; rfl
  · rw [List.length_take, Nat.min_eq_left hle]
    show 2 + (c + 2) = c + 4
    omega

/-- The text up to the first closing mark. -/
theorem exists_first_mark {s : List Char} (h : ['*', '/'] <:+: s) :
    ∃ body rest, s = body ++ ('*' :: '/' :: rest) ∧ ¬ ['*', '/'] <:+: body := by
  induction s with
  | nil => simp at h
  | cons c s ih =>
    by_cases hpre : ['*', '/'] <+: c :: s
    · obtain ⟨rest, hrest⟩ := hpre
      exact ⟨[], rest, hrest.symm, by simp⟩
    · obtain ⟨body, rest, rfl, hbody⟩ := ih ((List.infix_cons_iff.1 h).resolve_left hpre)
      refine ⟨c :: body, rest, rfl, fun hin => ?_⟩
      rcases List.infix_cons_iff.1 hin with hin | hin
      · exact hpre (hin.trans ⟨'*' :: '/' :: rest, rfl⟩)
      · exact hbody hin

theorem takesGap_blockComment : TakesGap blockComment := by
  intro s n h
  obtain ⟨body, rest, rfl, hbody, rfl⟩ := blockComment_parts h
  have hpiece : GapPiece ('/' :: '*' :: (body ++ ['*', '/'])) rest := .blockComment hbody
  have hsplit : '/' :: '*' :: (body ++ ('*' :: '/' :: rest)) =
      '/' :: '*' :: (body ++ ['*', '/']) ++ rest := by simp
  have hlength : body.length + 4 = ('/' :: '*' :: (body ++ ['*', '/'])).length := by simp
  rw [hsplit, hlength, List.take_left, List.drop_left]
  exact hpiece.gap

/-- A line comment goes on to the end of its line. -/
theorem lineComment_parts {s : List Char} {n : Nat} (h : lineComment.width? s = some n) :
    ∃ body rest, s = '/' :: '/' :: (body ++ rest) ∧ n = body.length + 2 ∧
      (∀ c ∈ body, isLineEnd c = false) ∧ AtLineEnd rest := by
  obtain ⟨a, b, ha, hb, rfl⟩ := width?_seq_eq_some.1 h
  obtain ⟨⟨r, rfl⟩, rfl⟩ := width?_word_eq_some.1 ha
  rw [List.drop_left] at hb
  have hstop := atLineEnd_of_width?_inLine (width?_drop_many (consuming_of_takesSome rfl) hb)
  obtain rfl : (r.takeWhile fun c => !isLineEnd c).length = b := by simpa [inLine] using hb
  have hsplit := List.prefix_iff_eq_append.1 (List.takeWhile_prefix (l := r) fun c => !isLineEnd c)
  refine ⟨r.takeWhile fun c => !isLineEnd c, _, congrArg ("//".toList ++ ·) hsplit.symm,
    Nat.add_comm _ _, fun c hc => ?_, hstop⟩
  simpa using List.mem_takeWhile_imp hc

theorem takesGap_lineComment : TakesGap lineComment := by
  intro s n h
  obtain ⟨body, rest, rfl, rfl, hbody, hstop⟩ := lineComment_parts h
  have hpiece : GapPiece ('/' :: '/' :: body) rest := .lineComment hbody hstop
  simpa using hpiece.gap

theorem directiveBody_of_width? {s : List Char} {n : Nat}
    (h : (many (.alt (.seq (.text "\\") lineEnd) inLine)).width? s = some n) :
    DirectiveBody (s.take n) (s.drop n) := by
  have hc : Consuming (.alt (.seq (.text "\\") lineEnd) inLine) :=
    consuming_of_takesSome (by decide)
  refine many_induction (motive := fun s n => DirectiveBody (s.take n) (s.drop n)) hc ?_ ?_ h
  · intro s hs
    exact .nil (atLineEnd_of_width?_inLine (width?_alt_eq_none.1 hs).2)
  · intro s a b ha _ ih
    rw [List.take_add, ← List.drop_drop]
    rcases width?_alt_eq_some.1 ha with ha | ⟨hjoin, ha⟩
    · obtain ⟨a₁, a₂, hback, hend, rfl⟩ := width?_seq_eq_some.1 ha
      obtain ⟨⟨r, rfl⟩, rfl⟩ := width?_word_eq_some.1 hback
      rw [List.take_add]
      simpa using DirectiveBody.join (width?_lineEnd hend) ih
    · obtain ⟨c, r, rfl, hcr, rfl⟩ := width?_one_eq_some.1 ha
      refine .char (by simpa using hcr) ?_ ih
      rintro rfl
      suffices ∀ d ∈ r.head?, isLineEnd d = false by simpa using this
      rcases width?_seq_eq_none.1 hjoin with hno | ⟨a₁, hback, hend⟩
      · exact absurd ⟨r, rfl⟩ (width?_word_eq_none.1 hno)
      · obtain ⟨-, rfl⟩ := width?_word_eq_some.1 hback
        exact not_isLineEnd_of_width?_lineEnd hend

theorem takesGap_directive : TakesGap directive := by
  intro s n h
  refine GapPiece.gap ?_
  obtain ⟨a, b, ha, hb, rfl⟩ := width?_seq_eq_some.1 h
  obtain ⟨⟨r, rfl⟩, rfl⟩ := width?_word_eq_some.1 ha
  rw [List.drop_left] at hb
  rw [List.take_add, ← List.drop_drop, List.drop_left]
  simpa using GapPiece.directive (directiveBody_of_width? hb)

/-! ## The gap at the head of a text -/

lemma consuming_blank : Consuming blank := consuming_of_takesSome (by decide)

lemma consuming_comment : Consuming comment := consuming_of_takesSome (by decide)

lemma consuming_commentBlanks : Consuming (.seq comment (.many blank)) :=
  consuming_of_takesSome (by decide)

theorem takesGap_comment : TakesGap comment :=
  takesGap_blockComment.alt (takesGap_lineComment.alt takesGap_directive)

/-- What is skipped is a gap. -/
theorem gap_take_gapWidth (s : List Char) : Gap (s.take (gapWidth s)) (s.drop (gapWidth s)) := by
  have hblanks : TakesGap (.many blank) := takesGap_blank.many consuming_blank
  have hgap : TakesGap gap :=
    hblanks.seq ((takesGap_comment.seq hblanks).many consuming_commentBlanks)
  refine hgap s _ ?_
  rfl

theorem gapWidth_le_length (s : List Char) : gapWidth s ≤ s.length := by
  refine width?_le_length (p := gap) ?_
  rfl

/-- The number of blanks at the head of a text, a joined line counting as long as it is. -/
def blankWidth (s : List Char) : Nat := ((Pattern.many blank).width? s).getD 0

/-- The number of characters of the comments at the head of a text and the blanks
behind each. -/
def commentsWidth (s : List Char) : Nat :=
  ((Pattern.many (.seq comment (.many blank))).width? s).getD 0

theorem gapWidth_eq (s : List Char) :
    gapWidth s = blankWidth s + commentsWidth (s.drop (blankWidth s)) := rfl

lemma blankWidth_of_none {s : List Char} (h : blank.width? s = none) : blankWidth s = 0 := by
  simp [blankWidth, width?_many_of_none h]

lemma blankWidth_of_some {s : List Char} {n : Nat} (h : blank.width? s = some n) :
    blankWidth s = n + blankWidth (s.drop n) := by
  rw [blankWidth, width?_many_of_some consuming_blank h]
  rfl

lemma commentsWidth_of_none {s : List Char} (h : comment.width? s = none) :
    commentsWidth s = 0 := by
  have hnone : (Pattern.seq comment (.many blank)).width? s = none :=
    width?_seq_eq_none.2 (.inl h)
  simp [commentsWidth, width?_many_of_none hnone]

lemma commentsWidth_of_some {s : List Char} {n : Nat} (h : comment.width? s = some n) :
    commentsWidth s = n + blankWidth (s.drop n) +
      commentsWidth (s.drop (n + blankWidth (s.drop n))) := by
  have hsome : (Pattern.seq comment (.many blank)).width? s =
      some (n + blankWidth (s.drop n)) :=
    width?_seq_eq_some.2 ⟨n, blankWidth (s.drop n), h, rfl, rfl⟩
  rw [commentsWidth, width?_many_of_some consuming_commentBlanks hsome]
  rfl

/-- Comments begin with a slash or a hash. -/
lemma head_of_comment {s : List Char} {n : Nat} (h : comment.width? s = some n) :
    ∃ r, s = '/' :: r ∨ s = '#' :: r := by
  rcases width?_alt_eq_some.1 h with h | ⟨-, h⟩
  · obtain ⟨a, b, ha, -, -⟩ := width?_seq_eq_some.1 h
    obtain ⟨⟨r, rfl⟩, -⟩ := width?_word_eq_some.1 ha
    exact ⟨_, .inl rfl⟩
  · rcases width?_alt_eq_some.1 h with h | ⟨-, h⟩
    · obtain ⟨a, b, ha, -, -⟩ := width?_seq_eq_some.1 h
      obtain ⟨⟨r, rfl⟩, -⟩ := width?_word_eq_some.1 ha
      exact ⟨_, .inl rfl⟩
    · obtain ⟨a, b, ha, -, -⟩ := width?_seq_eq_some.1 h
      obtain ⟨⟨r, rfl⟩, -⟩ := width?_word_eq_some.1 ha
      exact ⟨_, .inr rfl⟩

/-- No blank begins as a comment does. -/
lemma width?_blank_of_comment {s : List Char} {n : Nat} (h : comment.width? s = some n) :
    blank.width? s = none := by
  obtain ⟨r, rfl | rfl⟩ := head_of_comment h <;> rfl

theorem gapWidth_of_blank {s : List Char} {n : Nat} (h : blank.width? s = some n) :
    gapWidth s = n + gapWidth (s.drop n) := by
  rw [gapWidth_eq, gapWidth_eq, blankWidth_of_some h, ← List.drop_drop, Nat.add_assoc]

theorem gapWidth_of_comment {s : List Char} {n : Nat} (h : comment.width? s = some n) :
    gapWidth s = n + gapWidth (s.drop n) := by
  have hblank := width?_blank_of_comment h
  rw [gapWidth_eq, gapWidth_eq, blankWidth_of_none hblank, List.drop_zero, Nat.zero_add,
    commentsWidth_of_some h, ← List.drop_drop, Nat.add_assoc]

theorem gapWidth_blockComment {body : List Char} (h : ¬ ['*', '/'] <:+: body) (s : List Char) :
    gapWidth ('/' :: '*' :: (body ++ ('*' :: '/' :: s))) = body.length + 4 + gapWidth s := by
  have hcomment : comment.width? ('/' :: '*' :: (body ++ ('*' :: '/' :: s))) =
      some (body.length + 4) := width?_alt_of_some (width?_blockComment h s)
  rw [gapWidth_of_comment hcomment]
  simp

/-- There is no gap where neither white space nor a comment begins. -/
theorem gapWidth_eq_zero_iff {s : List Char} :
    gapWidth s = 0 ↔ blank.width? s = none ∧ comment.width? s = none := by
  constructor
  · intro h
    constructor
    · cases hb : blank.width? s with
      | none => rfl
      | some n =>
        have hpos := consuming_blank s n hb
        rw [gapWidth_of_blank hb] at h
        omega
    · cases hc : comment.width? s with
      | none => rfl
      | some n =>
        have hpos := consuming_comment s n hc
        rw [gapWidth_of_comment hc] at h
        omega
  · rintro ⟨hb, hc⟩
    rw [gapWidth_eq, blankWidth_of_none hb, List.drop_zero, commentsWidth_of_none hc]

/-- A mark that opens a comment is no gap where nothing closes the comment. -/
theorem gapWidth_open_eq_zero_iff {s : List Char} :
    gapWidth ('/' :: '*' :: s) = 0 ↔ ¬ ['*', '/'] <:+: s := by
  constructor
  · intro h hin
    obtain ⟨body, rest, rfl, hbody⟩ := exists_first_mark hin
    rw [gapWidth_blockComment hbody] at h
    omega
  · intro h
    have hblock : blockComment.width? ('/' :: '*' :: s) = none := by
      cases hn : blockComment.width? ('/' :: '*' :: s) with
      | none => rfl
      | some n =>
        obtain ⟨body, rest, hs, -⟩ := blockComment_parts hn
        obtain rfl : s = body ++ ('*' :: '/' :: rest) := by simpa using hs
        exact absurd ⟨body, rest, by simp⟩ h
    rw [gapWidth_eq_zero_iff]
    exact ⟨rfl, width?_alt_eq_none.2 ⟨hblock, rfl⟩⟩

/-- A gap is as long as it can be. -/
theorem gapWidth_drop_gapWidth (s : List Char) : gapWidth (s.drop (gapWidth s)) = 0 := by
  induction hm : s.length using Nat.strongRecOn generalizing s with
  | ind m ih =>
    have hstep : ∀ n, 0 < n → n ≤ s.length → gapWidth s = n + gapWidth (s.drop n) →
        gapWidth (s.drop (gapWidth s)) = 0 := by
      intro n hpos hle heq
      rw [heq, ← List.drop_drop]
      exact ih _ (by rw [List.length_drop]; omega) _ rfl
    cases hb : blank.width? s with
    | some n =>
      exact hstep n (consuming_blank s n hb) (width?_le_length hb) (gapWidth_of_blank hb)
    | none =>
      cases hc : comment.width? s with
      | some n =>
        exact hstep n (consuming_comment s n hc) (width?_le_length hc) (gapWidth_of_comment hc)
      | none =>
        have hzero := gapWidth_eq_zero_iff.2 ⟨hb, hc⟩
        rwa [hzero, List.drop_zero]

end CTree.Lexical
