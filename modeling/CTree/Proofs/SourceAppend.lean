import CTree.Proofs.BlankLine
import CTree.Proofs.DeclarationExtent
import CTree.Proofs.RowChange

/-!
# One source behind another

Two sources with a blank line in between are a source again, and its external declarations
are those of the first followed by those of the second. The blank line ends what the first
source may have left open but for a block comment, and no external declaration of the first
source is read differently for what stands behind it.
-/
namespace CTree.Lexical
open Pattern

/-! ## The end of the first source -/

lemma exists_spelling_of_closing {mark : Token} (h : mark ∈ Token.closing) :
    ∃ c, mark.spelling = [c] ∧ mark.mayBegin c = true ∧ isSticky c = false := by
  simp only [Token.closing, List.mem_cons, List.not_mem_nil, or_false] at h
  rcases h with rfl | rfl
  · exact ⟨';', rfl, rfl, rfl⟩
  · exact ⟨'\x7d', rfl, rfl, rfl⟩

lemma stands_of_closing {mark : Token} (h : mark ∈ Token.closing) (s : List Char) :
    Stands mark.spelling s := by
  have hfree : ∀ p : Punctuator, p.entry.notBefore = "" →
      (∀ c, (Token.punctuator p).snags c = false) → Stands p.text.toList s := by
    intro p hfollow hsnags
    refine ⟨.punctuator p, Token.noConfusion, ?_, fun c _ => hsnags c⟩
    refine width?_punctuator_eq_some.2 ⟨⟨s, rfl⟩, rfl, fun c _ => ?_⟩
    rw [hfollow]
    exact List.not_mem_nil
  simp only [Token.closing, List.mem_cons, List.not_mem_nil, or_false] at h
  rcases h with rfl | rfl
  · exact hfree .semi rfl fun _ => rfl
  · exact hfree .rightBrace rfl fun _ => rfl

/-- A blank line and a text without a closing mark close no comment. -/
theorem closesNoMore_blankLine {s : List Char} (h : ¬ ['*', '/'] <:+: s) (old : List Char) :
    ClosesNoMore old (old ++ '\n' :: '\n' :: s) := by
  intro t ht
  rw [← List.append_assoc] at ht
  refine (closed_of_closed_append (by decide) ht).resolve_right fun hclosed => ?_
  exact h ((closed_of_closed_append (s := []) (by decide) hclosed).resolve_left (by decide))

end CTree.Lexical

namespace CTree.Parse
open CTree.Grammar CTree.Lexical CTree.Lexical.Pattern CTree.Text

/-- Behind a gap and a blank line there is the gap of the other source. -/
lemma rowTo_gap_blankLine {gap : List Char} (h : Row [] gap) (other : List Char) :
    RowTo (other.drop (gapWidth other)) [] (gap ++ '\n' :: '\n' :: other) := by
  cases h with
  | done hend =>
    have hwhole : gapWidth gap = gap.length :=
      Nat.le_antisymm (gapWidth_le_length gap) (List.drop_eq_nil_iff.1 hend)
    refine .done ?_
    rw [gapWidth_blankLine hwhole, Nat.add_assoc, ← List.drop_drop, List.drop_left,
      Nat.add_comm 2]
    rfl

/-- The words of a source are its words still when another source is put behind it. -/
theorem rowTo_blankLine {words : List (List Char)} {source other : List Char}
    (h : Row words source)
    (hlast : ∀ u ∈ words.getLast?, ∃ mark ∈ Token.closing, u = mark.spelling)
    (hmark : ¬ ['*', '/'] <:+: other) :
    RowTo (other.drop (gapWidth other)) words (source ++ '\n' :: '\n' :: other) := by
  rcases words.eq_nil_or_concat' with rfl | ⟨front, u, rfl⟩
  · exact rowTo_gap_blankLine h other
  · obtain ⟨mark, hclosing, rfl⟩ := hlast u (by simp)
    obtain ⟨g, hfront, -, hrest⟩ := rowTo_append_iff.1 h
    have hstands := stands_of_closing hclosing (g ++ '\n' :: '\n' :: other)
    obtain ⟨c, hmarkText, hbegin, hsticky⟩ := exists_spelling_of_closing hclosing
    rw [hmarkText] at hfront hstands ⊢
    have hout : ∀ w, Outside isSticky (c :: w) := fun w => outside_cons.2 hsticky
    have hslash : c ≠ '/' := by
      rintro rfl
      cases hsticky
    have hclose : ClosesNoMore (c :: g) (c :: (g ++ '\n' :: '\n' :: other)) :=
      closesNoMore_blankLine hmark (c :: g)
    obtain ⟨before, hsource, hchange⟩ := @RowTo.change [] _ _ _ _ hfront (List.cons_ne_nil _ _)
      (outside_isGlue_of_sticky (hout g)) (outside_isGlue_of_sticky (hout _))
      (outside_isKnit_of_sticky (hout _))
      (gapWidth_eq_zero_of_mayBegin hbegin hslash _) (.inr hclose)
    refine rowTo_append_iff.2 ⟨g ++ '\n' :: '\n' :: other, ?_, hstands,
      rowTo_gap_blankLine hrest other⟩
    rw [hsource, List.append_assoc]
    exact hchange

/-! ## The declarations of a source -/

/-- The external declarations of a source: what its translation unit consists of, if any. -/
def Node.declarations (root : Node) : List Node :=
  root.children.flatMap fun
    | .branch .translationUnit _ _ units => units
    | _ => []

/-- Reading a text declaration by declaration. -/
abbrev Goal.declarations : Goal := .again (.rule .externalDeclaration)

section Declarations
variable {source : List Char} {root : Node} {here other stop : Cursor} {inside nodes : List Node}
  {twins : Twins} {read : List (List Char)}

theorem Node.declarations_source {offset place : Nat}
    (h : Reads (.once (.opt (.rule .translationUnit))) here (some (inside, stop))) :
    declarations (.branch .compilationUnit 0 offset (inside ++ [.leaf .endOfInput place []])) =
      inside.flatMap children := by
  cases h with
  | opt h =>
    cases h with
    | rule _ => rfl
  | noOpt _ => rfl

/-- A source is read declaration by declaration. -/
theorem exists_declarations_of_parse (h : parse source = .ok root) :
    ∃ stop, Reads .declarations (.start source) (some (root.declarations, stop)) ∧
      (skipGap stop).rest = [] ∧ root.texts = Node.wordTexts root.declarations := by
  obtain ⟨inside, stop, hinside, hend, rfl⟩ := parse_eq_ok_iff_inside.1 h
  obtain ⟨stop', hunits, hskip, hwords⟩ := hinside.again_of_opt rfl
  rw [Node.declarations_source hinside, hwords]
  refine ⟨stop', hunits, by rw [hskip, hend], ?_⟩
  rw [Node.texts, Node.words_source, Node.wordTexts]

/-- A text that is read declaration by declaration up to its end is a source. -/
theorem exists_parse_of_declarations
    (h : Reads .declarations (.start source) (some (nodes, stop)))
    (hend : (skipGap stop).rest = []) :
    ∃ root, parse source = .ok root ∧ root.declarations = nodes := by
  obtain ⟨inside, stop', hinside, hskip, rfl⟩ := h.opt_of_again (r := .translationUnit) rfl
  exact ⟨_, parse_eq_ok_iff_inside.2 ⟨inside, stop', hinside, by rw [hskip, hend], rfl⟩,
    Node.declarations_source hinside⟩

/-! ## The declarations of the first source -/

/-- Behind a declaration no word is at a snag. -/
theorem Behind.aligned_of_declaration
    (h : Behind twins (.rule .externalDeclaration) read here other) :
    Aligned twins read here other := by
  have hall : ∀ t ∈ Token.snagging, (Expr.rule .externalDeclaration).ends t = false := by
    decide +kernel
  exact h.aligned_of_ends hall

/-- A declaration at whose beginning the words of the first text are left is read from a text
that goes on behind these words. -/
theorem Reads.declaration_alike (hfinal : twins.final' = [])
    (haligned : Aligned twins read here other)
    (h : Reads (.once (.rule .externalDeclaration)) (skipGap other) (some (nodes, stop))) :
    ∃ nodes' stop', Reads (.once (.rule .externalDeclaration)) (skipGap here)
        (some (nodes', stop')) ∧
      Node.toRoses nodes' = Node.toRoses nodes ∧
      Aligned twins (read ++ Node.wordTexts nodes) stop' stop := by
  obtain ⟨result, hhere⟩ := exists_reads .externalDeclaration (skipGap here)
  cases hhere.alike rfl (fun _ _ => rfl) (haligned.beside _) with
  | none hnone => cases hnone.unique h
  | some hreads hroses hbehind =>
    cases hreads.unique h
    exact ⟨_, _, hhere, hroses.symm, hbehind.aligned_of_declaration⟩
  | astray hastray =>
    -- It would try a token behind all of the words that are left, and these begin with the
    -- words of the declaration.
    obtain ⟨t, ns, there, -, htries, -, hwords, -⟩ := hastray
    obtain ⟨left, hleft, -, hrow⟩ := haligned
    rw [hfinal] at hrow
    have hself : Aligned ⟨twins.words, [], []⟩ read other other := ⟨left, hleft, hrow, hrow⟩
    have hbehind := h.behind rfl (fun _ _ => rfl) barren_nil (hself.beside _)
    obtain ⟨rest, hrest, -⟩ := hbehind.aligned_of_declaration
    refine absurd ⟨rest, ?_⟩ (h.extent htries)
    rw [hwords, List.append_assoc] at hrest
    exact (List.append_cancel_left hrest).symm

/-- The declarations of the first text are read in front of whatever declarations follow. -/
theorem Reads.declarations_alike (hfinal : twins.final' = [])
    (h : Reads .declarations other (some (nodes, stop))) (hend : (skipGap stop).rest = [])
    (haligned : Aligned twins read here other) :
    ∃ nodes' mid, Node.toRoses nodes' = Node.toRoses nodes ∧ (skipGap mid).rest = twins.final ∧
      ∀ more stop', Reads .declarations mid (some (more, stop')) →
        Reads .declarations here (some (nodes' ++ more, stop')) := by
  generalize hgoal : Goal.declarations = goal at h
  induction h using Reads.match_induction generalizing here read with
  | again e other nodes mid more stop h _ _ ih =>
    cases hgoal
    obtain ⟨nodes', mid', hreads, hroses, hmid⟩ := h.declaration_alike hfinal haligned
    obtain ⟨more', last, hroses', hlast, hgo⟩ := ih hend hmid rfl
    refine ⟨nodes' ++ more', last, ?_, hlast, fun rest stop' hrest => ?_⟩
    · rw [Node.toRoses_append, Node.toRoses_append, hroses, hroses']
    · rw [List.append_assoc]
      exact .again hreads (hgo rest stop' hrest)
  | enough e other _ =>
    obtain ⟨left, -, hrow, hrow'⟩ := haligned
    rw [hfinal] at hrow'
    obtain rfl := hrow'.words_eq_nil (by rw [← skipGap_rest, hend])
    cases hrow with
    | done hdone => exact ⟨[], here, rfl, by rw [skipGap_rest, hdone], fun _ _ hrest => hrest⟩
  | _ => cases hgoal

/-- The last word of a row of declarations closes a declaration. -/
theorem Reads.closing_declarations (h : Reads .declarations here (some (nodes, stop))) :
    ∀ u ∈ (Node.wordTexts nodes).getLast?, ∃ mark ∈ Token.closing, u = mark.spelling := by
  generalize hgoal : Goal.declarations = goal at h
  induction h using Reads.match_induction with
  | again e here nodes mid more stop h _ _ ih =>
    cases hgoal
    intro u hu
    rw [Node.wordTexts_append, List.getLast?_append] at hu
    rcases Option.or_eq_some_iff.1 hu with hlast | ⟨-, hlast⟩
    · exact ih rfl u hlast
    · obtain ⟨front, mark, hmark, hwords⟩ := h.closing_externalDeclaration
      rw [hwords, List.getLast?_concat] at hlast
      exact ⟨mark, hmark, (Option.some.inj hlast).symm⟩
  | enough => nofun
  | _ => cases hgoal

/-! ## Both sources -/

theorem Node.map_toTree_eq (nodes : List Node) :
    nodes.map toTree = (toRoses nodes).map Rose.toTree := by
  induction nodes with
  | nil => rfl
  | cons n ns ih => rw [List.map_cons, ih, toRoses, List.map_cons, toTree]

/-- The declarations of a source are read where its text is left. -/
theorem exists_declarations_at (h : parse source = .ok root)
    (hhere : (skipGap here).rest = source.drop (gapWidth source)) :
    ∃ nodes stop, Reads .declarations here (some (nodes, stop)) ∧ (skipGap stop).rest = [] ∧
      Node.toRoses nodes = Node.toRoses root.declarations := by
  obtain ⟨stop, hreads, hend, -⟩ := exists_declarations_of_parse h
  have hrow := row_of_parse h
  have hrow' : Row root.texts here.rest := by
    have hskip := rowTo_drop_gapWidth_iff.2 hrow
    rw [← hhere, skipGap_rest] at hskip
    exact rowTo_drop_gapWidth_iff.1 hskip
  have haligned : Aligned ⟨root.texts, [], []⟩ [] (.start source) here :=
    ⟨root.texts, rfl, hrow, hrow'⟩
  have hapart : ∀ t ∈ Token.snagging,
      (Expr.rule Rule.externalDeclaration).many.apart t = true := by decide +kernel
  cases hreads.alike rfl hapart (.aligned haligned) with
  | some hreads hroses hbehind =>
    exact ⟨_, _, hreads, (hbehind.words_eq rfl hend).2, hroses⟩
  | astray h => exact absurd h (not_astray barren_nil barren_nil)

end Declarations

/-- Sources compose: with a blank line in between they are a source again, as long as the
second one cannot close a comment, and its external declarations are those of the first
source followed by those of the second. -/
theorem parse_append {s₁ s₂ : String} {root₁ root₂ : Node}
    (h₁ : Source.parse s₁ = .ok root₁) (h₂ : Source.parse s₂ = .ok root₂)
    (hmark : ¬ ['*', '/'] <:+: s₂.toList) :
    ∃ root, Source.parse (s₁ ++ "\n\n" ++ s₂) = .ok root ∧
      root.declarations.map Node.toTree =
        root₁.declarations.map Node.toTree ++ root₂.declarations.map Node.toTree := by
  have hparse₁ := source_parse_eq_ok_iff.1 h₁
  have hparse₂ := source_parse_eq_ok_iff.1 h₂
  obtain ⟨stop₁, hreads₁, hend₁, hwords₁⟩ := exists_declarations_of_parse hparse₁
  have hrow := row_of_parse hparse₁
  have hrow' := rowTo_blankLine hrow (hwords₁ ▸ hreads₁.closing_declarations) hmark
  have haligned : Aligned ⟨root₁.texts, s₂.toList.drop (gapWidth s₂.toList), []⟩ []
      (.start (s₁.toList ++ '\n' :: '\n' :: s₂.toList)) (.start s₁.toList) :=
    ⟨root₁.texts, rfl, hrow', hrow⟩
  obtain ⟨nodes₁, mid, hroses₁, hmid, hgo⟩ := hreads₁.declarations_alike rfl hend₁ haligned
  obtain ⟨nodes₂, stop, hreads₂, hend, hroses₂⟩ := exists_declarations_at hparse₂ hmid
  obtain ⟨root, hparse, hroot⟩ := exists_parse_of_declarations (hgo _ _ hreads₂) hend
  refine ⟨root, source_parse_eq_ok_iff.2 ?_, ?_⟩
  · simpa using hparse
  · rw [hroot, Node.map_toTree_eq, Node.map_toTree_eq, Node.map_toTree_eq, ← List.map_append,
      Node.toRoses_append, hroses₁, hroses₂]

theorem parse_append_function : ∃ root₁ root₂, Source.parse "int a;//" = .ok root₁ ∧
    Source.parse "f()\x7b\x7d" = .ok root₂ ∧ ¬ ['*', '/'] <:+: "f()\x7b\x7d".toList ∧
    ∃ root, Source.parse ("int a;//" ++ "\n\n" ++ "f()\x7b\x7d") = .ok root ∧
      root.declarations.map Node.toTree =
        root₁.declarations.map Node.toTree ++ root₂.declarations.map Node.toTree := by
  have hdeclaration : (Source.parse "int a;//").toOption.map Node.stop = some 8 := by
    decide +kernel
  have hfunction : (Source.parse "f()\x7b\x7d").toOption.map Node.stop = some 5 := by
    decide +kernel
  obtain ⟨root₁, h₁, -⟩ := exists_ok_of_map hdeclaration
  obtain ⟨root₂, h₂, -⟩ := exists_ok_of_map hfunction
  have hmark : ¬ ['*', '/'] <:+: "f()\x7b\x7d".toList := by decide
  exact ⟨root₁, root₂, h₁, h₂, hmark, parse_append h₁ h₂ hmark⟩

end CTree.Parse
