import CTree.Proofs.DeclarationExtent
import CTree.Proofs.EmbeddedExpression

/-!
# Statements in a block

In a block a declaration is tried before a statement, and what was read of one is not given up.
No statement is lost by it: only one that begins with an identifier and a star can be read as a
declaration at all. It is an expression in front of a semicolon, and the declaration, which
ends with a semicolon outside of all brackets, ends with the same one.
-/
namespace CTree.Parse
open CTree.Grammar CTree.Lexical CTree.Lexical.Pattern CTree.Text

/-! ## Statements that may be read as declarations -/

/-- A row that ends with the first such mark it shows outside of all brackets. -/
inductive EndsAtFirst (mark : Token) : List (List Char) → Prop
  | intro {front : List (List Char)} (hno : ¬ Marked mark 0 front) :
      EndsAtFirst mark (front ++ [mark.spelling])

/-- In front of its last word such a row does not show the mark. -/
theorem EndsAtFirst.not_marked {mark : Token} {words left : List (List Char)} {u : List Char}
    (h : EndsAtFirst mark (words ++ (left ++ [u]))) : ¬ Marked mark 0 words := by
  generalize hall : words ++ (left ++ [u]) = all at h
  cases h with
  | intro hno =>
    rw [← List.append_assoc] at hall
    obtain ⟨rfl, -⟩ := List.append_inj' hall rfl
    exact fun hmarked => hno (hmarked.mono (List.prefix_append _ _))

section
variable {r declaring : Rule} {here stop : Cursor} {root : Node} {text : List Char}
  {nodes : List Node}

/-- An expression in front of a semicolon shows no other one outside of all brackets. -/
theorem Reads.words_expressionStatement
    (h : Reads (.once (.rule .expressionStatement)) here (some (nodes, stop))) :
    EndsAtFirst (.punctuator .semi) (Node.wordTexts nodes) := by
  have hshows : (Expr.opt (.rule .expression)).shows (.punctuator .semi) 0 = false := by
    decide +kernel
  obtain ⟨inner, hbody, hwords⟩ := h.words_rule
  obtain ⟨first, _, semi, hfirst, hsemi, hparts⟩ := hbody.words_seq
  rw [hwords, hparts, hsemi.wordTexts_landmark (by decide)]
  exact .intro (hfirst.not_marked (by decide) (n := 0) rfl hshows)

/-- Of the statements only an expression begins with an identifier and a star. -/
theorem Reads.words_product (h : Reads (.once (.rule .statement)) here (some (nodes, stop)))
    (hpre : [.identifier, .punctuator .star] <+: Node.tokens nodes) :
    EndsAtFirst (.punctuator .semi) (Node.wordTexts nodes) := by
  have hpairs : ∀ r ∈ [Rule.labeledStatement, .compoundStatement, .selectionStatement,
      .iterationStatement, .jumpStatement],
      (Expr.rule r).pairs (· = .identifier) (· = .punctuator .star) 30 = false := by
    decide +kernel
  cases h with
  | @rule _ _ inner _ hbody =>
    have hne := hbody.ne_nil_of_rule
    rw [Node.tokens_branch hne] at hpre
    rw [Node.wordTexts_branch hne]
    have hother : ∀ r ∈ [Rule.labeledStatement, .compoundStatement, .selectionStatement,
        .iterationStatement, .jumpStatement],
        ¬ Reads (.once (.rule r)) here (some (inner, stop)) := by
      intro r hr h
      have hin : (Expr.rule r).inner = true := by
        refine Expr.inner_rule_iff.2 ?_
        rintro rfl
        exact absurd hr (by decide)
      have hno := h.first_tokens hin (hpairs r hr) hpre (by decide)
      cases hno
    cases hbody with
    | second _ h => exact absurd h (hother .jumpStatement (by decide))
    | first h =>
      cases h with
      | second _ h => exact absurd h (hother .iterationStatement (by decide))
      | first h =>
        cases h with
        | second _ h => exact absurd h (hother .selectionStatement (by decide))
        | first h =>
          cases h with
          | second _ h => exact h.words_expressionStatement
          | first h =>
            cases h with
            | first h => exact absurd h (hother .labeledStatement (by decide))
            | second _ h => exact absurd h (hother .compoundStatement (by decide))

/-- What another rule reads of a text are the first words of it. -/
theorem Matches.words_front (h : Matches r text root) (hr : r ≠ .compilationUnit)
    (hgap : gapWidth text = 0)
    (hreads : Reads (.once (.rule declaring)) (.start text) (some (nodes, stop)))
    (hdeclaring : declaring ≠ .compilationUnit)
    (hends : ∀ t ∈ Token.snagging, (Expr.rule declaring).ends t = false) :
    ∃ left, Node.wordTexts [root] = Node.wordTexts nodes ++ left ∧ Row left stop.rest := by
  have hbehind := hreads.behind_start hdeclaring hgap (h.row hr hgap)
  obtain ⟨left, hleft, hrest, -⟩ := hbehind.aligned_of_ends hends
  exact ⟨left, hleft, hrest⟩

/-- A declaration that is read in front of a statement reads all of it. -/
theorem Matches.declaration_whole (h : Matches .statement text root) (hgap : gapWidth text = 0)
    (hpre : [.identifier, .punctuator .star] <+: Node.tokens [root])
    (hreads : Reads (.once (.rule .declaration)) (.start text) (some (nodes, stop))) :
    (skipGap stop).rest = [] := by
  have hends : ∀ t ∈ Token.snagging, (Expr.rule Rule.declaration).ends t = false := by
    decide +kernel
  obtain ⟨left, hwords, hrow⟩ := h.words_front (by decide) hgap hreads (by decide) hends
  have hsemi := (matches_iff.1 h).words_product hpre
  rcases left.eq_nil_or_concat' with rfl | ⟨left, u, rfl⟩
  · cases hrow with
    | done hend => rw [skipGap_rest, hend]
  · -- The semicolon of the declaration would stand in the expression.
    rw [hwords] at hsemi
    exact absurd hreads.marked_declaration hsemi.not_marked

end

/-! ## In front of a brace -/

/-- The words of a text that a rule matches are its words in front of a blank too. -/
theorem Matches.rowTo_blank {r : Rule} {text s : List Char} {root : Node}
    (h : Matches r text root) (hr : r ≠ .compilationUnit) (htrim : Trimmed text root)
    (hs : ¬ ['*', '/'] <:+: s) :
    RowTo (s.drop (gapWidth s)) (Node.wordTexts [root]) (text ++ ' ' :: s) := by
  have hblank : Outside isKnit (' ' :: s) := outside_cons.2 rfl
  obtain ⟨front, last, hwords, hlast, -, hrow⟩ := h.words_stay hr htrim hblank
    (.inr (closesNoMore_cons (by decide) hs))
  rw [hwords]
  refine rowTo_append_iff.2 ⟨' ' :: s, hrow, hlast.stands (outside_cons.2 rfl), .done ?_⟩
  rw [gapWidth_blank (by decide), Nat.add_comm]
  rfl

/-- In front of a blank and a brace a statement is read as an item of a block: as a declaration
where it is one, and else as it is alone. -/
theorem Matches.reads_item {text : List Char} {root : Node} (h : Matches .statement text root)
    (htrim : Trimmed text root) (offset : Nat) :
    ∃ nodes mid, Reads (.once (.rule .blockItem)) (skipGap ⟨offset, text ++ [' ', '\x7d']⟩)
        (some (nodes, mid)) ∧
      Node.wordTexts nodes = Node.wordTexts [root] ∧ (skipGap mid).rest = ['\x7d'] := by
  have hrow := h.row (by decide) htrim.first
  have hrow' := h.rowTo_blank (by decide) htrim (s := ['\x7d']) (by decide)
  have haligned : Aligned ⟨Node.wordTexts [root], [], ['\x7d']⟩ [] (.start text)
      ⟨offset, text ++ [' ', '\x7d']⟩ := ⟨_, rfl, hrow, hrow'⟩
  have hlevel : rowLevel 0 (Node.wordTexts [root]) = some 0 := (matches_iff.1 h).rowLevel_eq rfl
  have hastray : ∀ r place,
      ¬ Astray ⟨Node.wordTexts [root], [], ['\x7d']⟩ [] (.once (.rule r)) place :=
    fun r place => not_astray_of_closing (lone_rightBrace []) rfl hlevel
  obtain ⟨result, hdeclaration⟩ := exists_reads .declaration (.start text)
  cases result with
  | none =>
    have hnone := hdeclaration.none_aligned (by decide) htrim.first haligned (hastray _)
    obtain ⟨nodes, mid, hreads, -, hwords, hmid⟩ := (matches_iff.1 h).all_words rfl (by decide)
      htrim.first rfl haligned (hastray _)
    have hbody : Reads (.once Rule.blockItem.body) _ _ := .second hnone hreads
    exact ⟨_, mid, .rule hbody, by rw [Node.wordTexts_branch hbody.ne_nil_of_rule, ← hwords], hmid⟩
  | some result =>
    have hpre : [.identifier, .punctuator .star] <+: Node.tokens [root] := by
      by_contra hno
      cases hdeclaration.unique (rivals_declaration.reads_none h htrim.first hno)
    have hend := h.declaration_whole htrim.first hpre hdeclaration
    obtain ⟨nodes, mid, hreads, -, hwords, hmid⟩ := hdeclaration.all_words hend (by decide)
      htrim.first rfl haligned (hastray _)
    have hbody : Reads (.once Rule.blockItem.body) _ _ := .first hreads
    exact ⟨_, mid, .rule hbody, by rw [Node.wordTexts_branch hbody.ne_nil_of_rule, ← hwords], hmid⟩

/-- At a closing brace no further item of a block is read. -/
theorem reads_none_item {here : Cursor} (hlone : Lone (.punctuator .rightBrace) here.rest)
    (hgap : gapWidth here.rest = 0) : Reads (.once (.rule .blockItem)) here none := by
  have hall : ∀ r ∈ [Rule.declaration, .labeledStatement, .compoundStatement, .expression,
      .selectionStatement, .iterationStatement, .jumpStatement],
      (Expr.rule r).begins (isOther (.punctuator .rightBrace)) 20 = true := by decide +kernel
  have hnone := fun r hr => reads_none_of_lone 20 hlone (hall r hr)
  have hsemi : Reads (.once (.rule .expressionStatement)) here none := by
    refine .noRule (.noSecond (.noOpt (hnone .expression (by decide))) ?_)
    rw [skipGap_of_gapWidth hgap]
    exact .noToken (hlone _ nofun)
  have hstatement : Reads (.once (.rule .statement)) here none :=
    .noRule (.second (.second (.second (.second (.second (hnone .labeledStatement (by decide))
      (hnone .compoundStatement (by decide))) hsemi) (hnone .selectionStatement (by decide)))
      (hnone .iterationStatement (by decide))) (hnone .jumpStatement (by decide)))
  exact .noRule (.second (hnone .declaration (by decide)) hstatement)

/-- An item of a block, with a brace in front of it and one behind it. -/
theorem reads_block {s : List Char} {items : List Node} {mid : Cursor}
    (h : Reads (.once (.rule .blockItem)) (skipGap ⟨1, s⟩) (some (items, mid)))
    (hend : (skipGap mid).rest = ['\x7d']) :
    ∃ block, Matches .compoundStatement ('\x7b' :: s) block ∧
      Node.wordTexts [block] = ['\x7b'] :: Node.wordTexts items ++ [['\x7d']] := by
  have hnone : Reads (.once (.rule .blockItem)) (skipGap mid) none := by
    refine reads_none_item ?_ (gapWidth_skipGap mid)
    rw [hend]
    exact lone_rightBrace []
  have hlist : Reads (.once Rule.blockItemList.body) (skipGap ⟨1, s⟩)
      (some (items ++ [], skipGap mid)) := .seq h (.noMany hnone)
  have hskip := skipGap_of_gapWidth (gapWidth_skipGap mid)
  generalize skipGap mid = place at hend hskip hlist
  obtain ⟨offset, rest⟩ := place
  obtain rfl : rest = ['\x7d'] := hend
  have hopen : Reads (.once (.token (.punctuator .leftBrace))) ⟨0, '\x7b' :: s⟩
      (some ([.leaf (.punctuator .leftBrace) 0 ['\x7b']], ⟨1, s⟩)) :=
    reads_mark rfl fun _ _ h => by cases h
  have hclose : Reads (.once (.token (.punctuator .rightBrace))) ⟨offset, ['\x7d']⟩
      (some ([.leaf (.punctuator .rightBrace) offset ['\x7d']], ⟨offset + 1, []⟩)) :=
    reads_mark rfl fun _ _ h => by cases h
  have hblock := Reads.rule (r := .compoundStatement)
    (.seq (.seq hopen (.opt (.rule hlist))) (by rw [hskip]; exact hclose))
  refine ⟨_, hblock.matches_of_end rfl, ?_⟩
  rw [Node.wordTexts_branch (by simp), Node.wordTexts_append, Node.wordTexts_append,
    Node.wordTexts_leaf (t := .punctuator .leftBrace) nofun,
    Node.wordTexts_leaf (t := .punctuator .rightBrace) nofun,
    Node.wordTexts_branch hlist.ne_nil_of_rule, List.append_nil]
  rfl

/-- A block accepts every statement. -/
theorem block_accepts_statement {s : List Char} {root : Node} (h : Matches .statement s root)
    (htrim : Trimmed s root) :
    ∃ block, Matches .compoundStatement ("\x7b ".toList ++ s ++ " \x7d".toList) block ∧
      block.toTree.leaves = "\x7b" :: root.toTree.leaves ++ ["\x7d"] := by
  have htext : "\x7b ".toList ++ s ++ " \x7d".toList =
      '\x7b' :: ' ' :: (s ++ [' ', '\x7d']) := by simp
  rw [htext]
  obtain ⟨items, mid, hitem, hwords, hend⟩ := h.reads_item htrim 2
  rw [← skipGap_space 1] at hitem
  obtain ⟨block, hblock, hparts⟩ := reads_block hitem hend
  refine ⟨block, hblock, ?_⟩
  have hgap : gapWidth ('\x7b' :: ' ' :: (s ++ [' ', '\x7d'])) = 0 :=
    gapWidth_eq_zero_of_mayBegin (t := .punctuator .leftBrace) rfl (by decide) _
  rw [hblock.leaves_eq (by decide) hgap, h.leaves_eq (by decide) htrim.first, hparts, hwords,
    List.map_append, List.map_cons]
  rfl

/-- A product alone is an expression. In a block it declares a pointer. -/
theorem block_accepts_statement_product : ∃ root, Matches .statement "a * b;".toList root ∧
    Trimmed "a * b;".toList root ∧
    ∃ block, Matches .compoundStatement
        ("\x7b ".toList ++ "a * b;".toList ++ " \x7d".toList) block ∧
      block.toTree.leaves = "\x7b" :: root.toTree.leaves ++ ["\x7d"] := by
  obtain ⟨root, h, htrim⟩ := exists_trimmed .statement "a * b;".toList
    (by decide +kernel) (by decide +kernel)
  exact ⟨root, h, htrim, block_accepts_statement h htrim⟩

end CTree.Parse
