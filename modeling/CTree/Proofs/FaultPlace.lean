import CTree.Proofs.FurthestFailure
import CTree.Source

/-!
# The place that a rejection names

A token is tried only where no gap begins, so a fault is never about the inside of white
space, of a comment or of a preprocessor line. Its offset splits the source between two
characters, and its span, its line and column, its label and its advice are all about
this one split.
-/
namespace CTree.Text

/-! ## Lines and columns -/

/-- The place behind a character. -/
def Place.behind (place : Place) (c : Char) : Place :=
  if c = '\n' then ⟨place.line + 1, 1⟩ else ⟨place.line, place.column + 1⟩

/-- What stands behind the last line feed. -/
def lastLine (s : List Char) : List Char := (s.reverse.takeWhile (· ≠ '\n')).reverse

theorem placeAt_eq_foldl (front rest : List Char) :
    placeAt (byteCount front) (front ++ rest) = front.foldl Place.behind ⟨1, 1⟩ := by
  have hfrom : ∀ place, placeAt.go (byteCount front) place (front ++ rest) =
      front.foldl Place.behind place := by
    induction front with
    | nil =>
      intro place
      rw [byteCount_nil, placeAt.go]
      rfl
    | cons c front ih =>
      intro place
      obtain ⟨n, hn⟩ := Nat.exists_eq_succ_of_ne_zero
        (show byteCount (c :: front) ≠ 0 by have := c.utf8Size_pos; simp; omega)
      have hleft : n + 1 - c.utf8Size = byteCount front := by
        rw [byteCount_cons] at hn
        omega
      rw [hn, List.cons_append, placeAt.go, hleft, ih]
      rfl
  exact hfrom ⟨1, 1⟩

/-- Lines are counted by their line feeds, and columns by the characters behind the last one. -/
theorem placeAt_append (front rest : List Char) :
    placeAt (byteCount front) (front ++ rest) =
      ⟨1 + front.count '\n', 1 + (lastLine front).length⟩ := by
  rw [placeAt_eq_foldl]
  induction front using List.reverseRecOn with
  | nil => rfl
  | append_singleton front c ih =>
    rw [List.foldl_append, ih]
    by_cases hc : c = '\n'
    · simp [Place.behind, lastLine, hc, Nat.add_assoc]
    · simp [Place.behind, lastLine, hc, Nat.add_assoc]

end CTree.Text

namespace CTree.Lexical
open Pattern

/-- A repetition that may be empty never fails. -/
lemma width?_seq_many_ne_none {p q : Pattern} {s : List Char} (h : p.width? s ≠ none) :
    (Pattern.seq p (.many q)).width? s ≠ none := by
  intro hnone
  rcases width?_seq_eq_none.1 hnone with hp | ⟨n, -, hq⟩
  · exact h hp
  · rw [width?_many] at hq
    cases hq

/-- Where a piece of a gap stands there is something to skip. -/
theorem GapPiece.gapWidth_ne_zero {piece rest : List Char} (h : GapPiece piece rest) :
    gapWidth (piece ++ rest) ≠ 0 := by
  intro hzero
  obtain ⟨hblank, hcomment⟩ := gapWidth_eq_zero_iff.1 hzero
  have hothers := (width?_alt_eq_none.1 hcomment).2
  cases h with
  | @blank c _ hc =>
    have hone := (width?_alt_eq_none.1 hblank).1
    rw [List.singleton_append, Pattern.oneOf, width?_one_cons] at hone
    simp [hc] at hone
  | join hend =>
    have hjoin := (width?_alt_eq_none.1 hblank).2
    rcases width?_seq_eq_none.1 hjoin with hback | ⟨n, hback, hline⟩
    · exact width?_word_eq_none.1 hback (List.cons_prefix_cons.2 ⟨rfl, List.nil_prefix⟩)
    · obtain ⟨-, rfl⟩ := width?_word_eq_some.1 hback
      have hnone := not_isLineEnd_of_width?_lineEnd hline
      rcases hend with rfl | rfl | rfl <;> exact absurd (hnone _ rfl) (by decide)
  | @blockComment body _ hbody =>
    have hwidth := gapWidth_blockComment hbody rest
    simp only [List.cons_append, List.append_assoc, List.nil_append] at hzero
    omega
  | lineComment =>
    exact width?_seq_many_ne_none (fun hno => width?_word_eq_none.1 hno ⟨_, rfl⟩)
      (width?_alt_eq_none.1 hothers).1
  | directive =>
    exact width?_seq_many_ne_none (fun hno => width?_word_eq_none.1 hno ⟨_, rfl⟩)
      (width?_alt_eq_none.1 hothers).2

end CTree.Lexical

namespace CTree.Parse
open CTree.Grammar CTree.Lexical CTree.Text

/-! ## No token is tried where a gap begins -/

theorem Tries.gapWidth_eq_zero {goal : Goal} {here there : Cursor} {t : Token} {read : List Node}
    (h : Tries goal here t read there) (hready : goal.Ready here) : gapWidth there.rest = 0 := by
  induction h with
  | token => exact hready
  | rule _ ih | seqFirst _ ih | altFirst _ ih | altSecond _ _ ih | opt _ ih | ahead _ ih
  | manyFirst _ ih => exact ih hready
  | seqSecond _ _ ih | againFirst _ ih => exact ih (gapWidth_skipGap _)
  | manyMore _ _ ih | againMore _ _ ih => exact ih trivial

/-- Of a whole source no token is tried in front of its first gap: the rule for it begins with
nothing, and then the gap is skipped. -/
theorem Tries.gapWidth_source {source : List Char} {there : Cursor} {t : Token} {read : List Node}
    (h : Tries (.once (.rule .compilationUnit)) (.start source) t read there) :
    gapWidth there.rest = 0 := by
  cases h with
  | rule h =>
    cases h with
    | seqFirst h =>
      cases h with
      | seqFirst h => cases h
      | seqSecond _ h => exact h.gapWidth_eq_zero (gapWidth_skipGap _)
    | seqSecond _ h => exact h.gapWidth_eq_zero (gapWidth_skipGap _)

theorem exists_split_of_parse_eq_error {source : List Char} {fault : Fault}
    (h : parse source = .error fault) :
    ∃ front rest, source = front ++ rest ∧ byteCount front = fault.offset ∧ gapWidth rest = 0 := by
  obtain ⟨-, ⟨t, read, there, htries, -, hoffset⟩, -⟩ := parse_eq_error h
  obtain ⟨front, hsource, hthere⟩ := htries.reaches
  refine ⟨front, there.rest, hsource, ?_, htries.gapWidth_source⟩
  rw [← hoffset, hthere]
  exact (Nat.zero_add _).symm

/-! ## What is told of it -/

/-- A diagnostic is about the split of a source into `front` and `rest`. -/
structure LocatedAt (front rest : List Char) (d : Diagnostic) : Prop where
  kind : d.kind = .parse
  /-- No white space, comment or preprocessor line begins there. -/
  solid : ∀ piece more, rest = piece ++ more → ¬ GapPiece piece more
  span : d.span = some ⟨byteCount front, byteCount front⟩
  /-- Lines are counted by line feeds, and columns by the characters behind the last one. -/
  message : ∃ wanted line column, d.message = wanted ++ s!" at line {line}, column {column}" ∧
    line = 1 + front.count '\n' ∧ column = 1 + (lastLine front).length
  ended : d.help = some "the input ended before the construct was complete" ↔
    byteCount front = byteCount (front ++ rest)
  going : d.help = some "check the token under the marker" ↔
    byteCount front < byteCount (front ++ rest)
  label : d.label? = some ⟨d.message, byteCount front, 0⟩

theorem locatedAt_ofSource {front rest : List Char} {fault : Fault}
    (hoffset : byteCount front = fault.offset) (hgap : gapWidth rest = 0) :
    LocatedAt front rest (Error.ofSource fault (front ++ rest)) where
  kind := rfl
  solid piece more heq hpiece := hpiece.gapWidth_ne_zero (by rw [← heq, hgap])
  span := by rw [hoffset]; rfl
  message := by
    refine ⟨fault.message Symbol.description, _, _, rfl, ?_⟩
    rw [← hoffset, placeAt_append]
    exact ⟨rfl, rfl⟩
  ended := by
    simp only [Error.ofSource, ← hoffset, byteCount_append]
    split <;> simp <;> omega
  going := by
    simp only [Error.ofSource, ← hoffset, byteCount_append]
    split <;> simp <;> omega
  label := by
    simp [Diagnostic.label?, Error.ofSource, hoffset]

/-- Every rejection is located: at a place between two characters of the source where nothing
that is skipped begins, and all that is told is about this place. -/
theorem rejection_located {source : String} {e : Error} (h : Source.parse source = .error e) :
    ∃ front rest, source.toList = front ++ rest ∧ LocatedAt front rest e.diagnostic := by
  cases hparse : parse source.toList with
  | ok root =>
    rw [Source.parse, hparse] at h
    cases h
  | error fault =>
    rw [Source.parse, hparse] at h
    obtain rfl := Except.error.inj h
    obtain ⟨front, rest, hsource, hoffset, hgap⟩ := exists_split_of_parse_eq_error hparse
    refine ⟨front, rest, hsource, ?_⟩
    rw [Error.diagnostic, hsource]
    exact locatedAt_ofSource hoffset hgap

theorem rejection_located_third_line :
    ∃ e, Source.parse "/* é */\r\nint x\r\n  @" = .error e ∧
      e.diagnostic.span = some ⟨19, 19⟩ ∧
      ∃ front rest, "/* é */\r\nint x\r\n  @".toList = front ++ rest ∧
        LocatedAt front rest e.diagnostic := by
  have hspan : (((Source.parse "/* é */\r\nint x\r\n  @").map fun _ => none).tryCatch
      fun e => .ok e.diagnostic.span).toOption = some (some ⟨19, 19⟩) := by decide +kernel
  cases h : Source.parse "/* é */\r\nint x\r\n  @" with
  | ok root =>
    rw [h] at hspan
    cases hspan
  | error e =>
    rw [h] at hspan
    exact ⟨e, rfl, Option.some.inj hspan, rejection_located h⟩

end CTree.Parse
