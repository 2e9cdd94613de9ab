import CTree.Proofs.LayoutSimulation

/-!
# The layout of a source has no say

The tree of a source depends on its words only. Put the words down with any white
space between each two of them, and comments behind it, and the tree is the same.
-/
namespace CTree.Lexical
open Pattern

/-- White space and closed comments in a row. -/
inductive Padding : List Char → Prop
  | nil : Padding []
  | blank {c s} : c ∈ " \t\r\n".toList → Padding s → Padding (c :: s)
  | comment {body s} : ¬ ['*', '/'] <:+: body → Padding s →
      Padding ('/' :: '*' :: (body ++ ['*', '/']) ++ s)

/-- What keeps two words apart: a character of white space, and padding behind it. -/
inductive Separator : List Char → Prop
  | intro {c s} : c ∈ " \t\r\n".toList → Padding s → Separator (c :: s)

/-- The words with a separator between each two neighbours. -/
inductive Spaced : List (List Char) → List Char → Prop
  | nil : Spaced [] []
  | one {u} : Spaced [u] u
  | more {u v words separator text} : Separator separator → Spaced (v :: words) text →
      Spaced (u :: v :: words) (u ++ (separator ++ text))

theorem gapWidth_blank {c : Char} (hc : c ∈ " \t\r\n".toList) (s : List Char) :
    gapWidth (c :: s) = 1 + gapWidth s := by
  have hone : blank.width? (c :: s) = some 1 := by
    refine width?_alt_eq_some.2 (.inl (width?_one_eq_some.2 ⟨c, s, rfl, ?_, rfl⟩))
    exact List.contains_iff_mem.2 hc
  rw [gapWidth_of_blank hone]
  rfl

theorem Padding.gapWidth_append {s : List Char} (h : Padding s) (r : List Char) :
    gapWidth (s ++ r) = s.length + gapWidth r := by
  induction h with
  | nil => simp
  | blank hc _ ih =>
    rw [List.cons_append, gapWidth_blank hc, ih, List.length_cons]
    omega
  | @comment body s hbody _ ih =>
    have hsplit : '/' :: '*' :: (body ++ ['*', '/']) ++ s ++ r =
        '/' :: '*' :: (body ++ ('*' :: '/' :: (s ++ r))) := by simp
    rw [hsplit, gapWidth_blockComment hbody, ih]
    simp only [List.length_append, List.length_cons, List.length_nil]
    omega

theorem Separator.gapWidth_append {s : List Char} (h : Separator s) (r : List Char) :
    gapWidth (s ++ r) = s.length + gapWidth r := by
  obtain ⟨hc, hs⟩ := h
  exact (Padding.blank hc hs).gapWidth_append r

theorem Separator.outside_isSolid {s : List Char} (h : Separator s) (r : List Char) :
    Outside isSolid (s ++ r) := by
  obtain ⟨hc, hs⟩ := h
  refine outside_cons.2 ?_
  rw [isSolid, List.contains_iff_mem.2 hc]
  rfl

end CTree.Lexical

namespace CTree.Parse
open CTree.Grammar CTree.Lexical CTree.Text

theorem Row.isTokenText {words : List (List Char)} {s : List Char} (h : Row words s) :
    ∀ u ∈ words, IsTokenText u := by
  induction h with
  | done => simp
  | word _ hu _ ih => exact List.forall_mem_cons.2 ⟨hu.isTokenText, ih⟩

/-- Words that are put down with separators are a row. -/
theorem Row.of_spaced {words : List (List Char)} {text : List Char} (h : Spaced words text)
    (hwords : ∀ u ∈ words, IsTokenText u) : Row words text := by
  induction h with
  | nil => exact .done rfl
  | @one u =>
    have hu := hwords u (List.mem_singleton_self u)
    have hout := Pattern.outside_nil isSolid
    have hgap := hu.gapWidth_append hout
    rw [List.append_nil] at hgap
    refine .word (v := []) ?_ (hu.stands hout) (.done rfl)
    rw [hgap, List.drop_zero, List.append_nil]
  | @more u v words separator text hsep _ ih =>
    obtain ⟨hu, hrest⟩ := List.forall_mem_cons.1 hwords
    have hout := hsep.outside_isSolid text
    refine .word (v := separator ++ text) ?_ (hu.stands hout) ?_
    · rw [hu.gapWidth_append hout, List.drop_zero]
    · have hrow := rowTo_drop_gapWidth_iff.2 (ih hrest)
      rw [← rowTo_drop_gapWidth_iff, hsep.gapWidth_append, ← List.drop_drop, List.drop_left]
      exact hrow

/-- The texts of the words of a parse tree. The mark at the end is none of them. -/
def Node.texts (root : Node) : List (List Char) := (words [root]).map (·.text)

/-- A source that is accepted is the row of the words of its tree. -/
theorem row_of_parse {source : List Char} {root : Node} (h : parse source = .ok root) :
    Row root.texts source := by
  obtain ⟨stop, hpasses, hend, hchain⟩ := passes_of_parse h
  have hrow := hpasses.rowTo (fun w _ => by rw [hend]; exact Pattern.outside_nil _) hchain
  rwa [hend] at hrow

/-- A text with the words of a source that is accepted has the same tree. -/
theorem parse_of_row {source other : List Char} {root : Node} {words : List (List Char)}
    (h : parse source = .ok root) (hrow : Row words source) (hother : Row words other) :
    ∃ root', parse other = .ok root' ∧ root'.toRose = root.toRose := by
  obtain ⟨inside, stop, hinside, hend, rfl⟩ := parse_eq_ok_iff_inside.1 h
  have haligned : Aligned ⟨words, [], []⟩ [] (.start source) (.start other) :=
    ⟨words, rfl, hrow, hother⟩
  cases hinside.alike rfl apart_source (haligned.beside _) with
  | astray h => exact absurd h (not_astray barren_nil barren_nil)
  | @some _ _ inside' stop' hreads hroses hbehind =>
    have hend' := (hbehind.words_eq rfl hend).2
    refine ⟨_, parse_eq_ok_iff_inside.2 ⟨inside', stop', hreads, hend', rfl⟩, ?_⟩
    rw [Node.toRose, Node.toRose, Node.toRoses_append, Node.toRoses_append, hroses]
    rfl

/-- The tree of a source is a function of the texts of its tokens: a text that has them
with separators in between is accepted and has the same tree, and so has every source
that is accepted with the same tokens. -/
theorem layout_independent {source : String} {root : Node} (h : Source.parse source = .ok root) :
    (∀ text : String, Spaced root.texts text.toList →
      (∃ root', Source.parse text = .ok root') ∧
        Source.toTree text = Source.toTree source) ∧
    (∀ (other : String) (root' : Node), Source.parse other = .ok root' →
      root'.texts = root.texts → Source.toTree other = Source.toTree source) := by
  have hparse := source_parse_eq_ok_iff.1 h
  have hrow := row_of_parse hparse
  have hall : ∀ text : String, Row root.texts text.toList →
      (∃ root', Source.parse text = .ok root') ∧
        Source.toTree text = Source.toTree source := by
    intro text hother
    obtain ⟨root', hparse', hrose⟩ := parse_of_row hparse hrow hother
    have h' := source_parse_eq_ok_iff.2 hparse'
    refine ⟨⟨root', h'⟩, ?_⟩
    rw [source_toTree_eq h, source_toTree_eq h', Node.toTree, Node.toTree, hrose]
  constructor
  · intro text hspaced
    exact hall text (.of_spaced hspaced hrow.isTokenText)
  · intro other root' h' htexts
    refine (hall other ?_).2
    rw [← htexts]
    exact row_of_parse (source_parse_eq_ok_iff.1 h')

theorem layout_independent_declaration : ∃ root, Source.parse "int a;" = .ok root ∧
    Spaced root.texts "int\t/*b*/a ;".toList ∧
    (∃ root', Source.parse "int\t/*b*/a ;" = .ok root') ∧
    Source.toTree "int\t/*b*/a ;" = Source.toTree "int a;" := by
  have htexts : (Source.parse "int a;").toOption.map Node.texts =
      some ["int".toList, ['a'], [';']] := by
    decide +kernel
  obtain ⟨root, hparse, hroot⟩ := exists_ok_of_map htexts
  have hcomment : Separator ("\t/*b*/".toList) :=
    .intro (by decide) (@Padding.comment ['b'] [] (by decide) .nil)
  have hspaced : Spaced root.texts "int\t/*b*/a ;".toList := by
    rw [hroot]
    exact .more hcomment (@Spaced.more ['a'] [';'] [] [' '] [';'] (.intro (by decide) .nil) .one)
  exact ⟨root, hparse, hspaced, (layout_independent hparse).1 _ hspaced⟩

end CTree.Parse
