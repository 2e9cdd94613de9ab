import CTree.Proofs.OuterMarks

/-!
# Where a declaration ends

The words of an external declaration that was read are never passed by: no alternative that
is tried at its beginning reads all of them and then tries one more token. So what follows
the declaration has no say in how it is read. A function definition with declarations in
front of its body is the one alternative that could be thought to go on behind a semicolon,
but it wants a declaration right behind its declarator, where the semicolon, or an equals
sign or a comma in front of it, is not one.
-/
namespace CTree.Parse
open CTree.Grammar CTree.Lexical CTree.Text

/-! ## Repetitions -/

section Repetitions
variable {r : Rule} {e : Expr Rule} {here there stop : Cursor} {t : Token}
  {nodes read : List Node}

/-- A rule that repeats its item may be read, or not, as further items of a repetition. -/
theorem Reads.again_of_opt (hbody : r.body = Expr.oneOrMore e)
    (h : Reads (.once (.opt (.rule r))) (skipGap here) (some (nodes, stop))) :
    ∃ stop', Reads (.again e) here (some (nodes.flatMap Node.children, stop')) ∧
      skipGap stop' = skipGap stop ∧
      Node.wordTexts (nodes.flatMap Node.children) = Node.wordTexts nodes := by
  cases h with
  | opt h =>
    cases h with
    | @rule _ _ inner _ h =>
      have hwords : Node.wordTexts inner = Node.wordTexts
          [.branch r (skipGap here).offset stop.offset inner] := by
        rw [Node.wordTexts_branch h.ne_nil_of_rule]
      have hinner : [Node.branch r (skipGap here).offset stop.offset inner].flatMap
          Node.children = inner := List.append_nil inner
      rw [hinner]
      rw [hbody] at h
      cases h with
      | @seq _ _ _ first mid _ _ hfirst hmore =>
        cases hmore with
        | many hturn hmore => exact ⟨stop, .again hfirst (.again hturn hmore), rfl, hwords⟩
        | noMany hnone =>
          refine ⟨mid, .again hfirst (.enough hnone), ?_, hwords⟩
          exact (skipGap_of_gapWidth (gapWidth_skipGap mid)).symm
  | noOpt h =>
    cases h with
    | noRule h =>
      rw [hbody] at h
      have hgap := skipGap_of_gapWidth (gapWidth_skipGap here)
      cases h with
      | noFirst h => exact ⟨here, .enough h, hgap.symm, rfl⟩
      | noSecond _ h => cases h

/-- Items of a repetition are what the rule that repeats them reads. -/
theorem Reads.opt_of_again (hbody : r.body = Expr.oneOrMore e)
    (h : Reads (.again e) here (some (nodes, stop))) :
    ∃ whole stop', Reads (.once (.opt (.rule r))) (skipGap here) (some (whole, stop')) ∧
      skipGap stop' = skipGap stop ∧ whole.flatMap Node.children = nodes := by
  cases h with
  | @again _ _ first mid more _ hfirst hmore =>
    have hrest : ∃ stop', Reads (.once (.many e)) (skipGap mid) (some (more, stop')) ∧
        skipGap stop' = skipGap stop := by
      cases hmore with
      | again hturn hmore => exact ⟨stop, .many hturn hmore, rfl⟩
      | enough hnone =>
        exact ⟨_, .noMany hnone, skipGap_of_gapWidth (gapWidth_skipGap stop)⟩
    obtain ⟨stop', hmany, hstop⟩ := hrest
    have hwhole : Reads (.once r.body) (skipGap here) (some (first ++ more, stop')) := by
      rw [hbody]
      exact .seq hfirst hmany
    exact ⟨_, stop', .opt (.rule hwhole), hstop, List.append_nil _⟩
  | enough hnone =>
    have hwhole : Reads (.once r.body) (skipGap here) none := by
      rw [hbody]
      exact .noFirst hnone
    exact ⟨[], _, .noOpt (.noRule hwhole), skipGap_of_gapWidth (gapWidth_skipGap here), rfl⟩

theorem Tries.again_of_opt (hbody : r.body = Expr.oneOrMore e)
    (h : Tries (.once (.opt (.rule r))) (skipGap here) t read there) :
    Tries (.again e) here t read there := by
  cases h with
  | opt h =>
    cases h with
    | rule h =>
      rw [hbody] at h
      cases h with
      | seqFirst h => exact .againFirst h
      | seqSecond hfirst h =>
        refine .againMore hfirst ?_
        cases h with
        | manyFirst h => exact .againFirst h
        | manyMore hturn h => exact .againMore hturn h

/-- A token is tried in one turn of a repetition, behind the turns in front of it. -/
theorem Tries.in_turn (h : Tries (.again e) here t read there)
    (hreads : Reads (.again e) here (some (nodes, stop))) :
    ∃ done rest last place, nodes = done ++ rest ∧ read = done ++ last ∧
      Reads (.again e) place (some (rest, stop)) ∧
      Tries (.once e) (skipGap place) t last there := by
  generalize hgoal : Goal.again e = goal at h
  induction h generalizing nodes with
  | againFirst h =>
    cases hgoal
    exact ⟨[], nodes, _, _, rfl, rfl, hreads, h⟩
  | @againMore _ _ first mid _ _ _ hfirst _ ih =>
    cases hgoal
    cases hreads with
    | again hfirst' hmore =>
      cases hfirst.unique hfirst'
      obtain ⟨done, rest, last, place, rfl, rfl, hrest, htries⟩ := ih hmore rfl
      exact ⟨first ++ done, rest, last, place, (List.append_assoc ..).symm,
        (List.append_assoc ..).symm, hrest, htries⟩
    | enough hnone => cases hfirst.unique hnone
  | _ => cases hgoal

end Repetitions

/-! ## First and last words -/

section Words
variable {e f g : Expr Rule} {here there mid stop : Cursor} {mark t : Token}
  {nodes read : List Node} {m d : Nat} {goal : Goal} {words more : List (List Char)}

/-- What a rule reads is what its body reads. -/
theorem Reads.words_rule {r : Rule} (h : Reads (.once (.rule r)) here (some (nodes, stop))) :
    ∃ inner, Reads (.once r.body) here (some (inner, stop)) ∧
      Node.wordTexts nodes = Node.wordTexts inner := by
  cases h with
  | rule h => exact ⟨_, h, Node.wordTexts_branch h.ne_nil_of_rule⟩

/-- What a row reads is what its first part reads and, behind it, the other one. -/
theorem Reads.words_seq (h : Reads (.once (.seq e f)) here (some (nodes, stop))) :
    ∃ first mid second, Reads (.once e) here (some (first, mid)) ∧
      Reads (.once f) (skipGap mid) (some (second, stop)) ∧
      Node.wordTexts nodes = Node.wordTexts first ++ Node.wordTexts second := by
  cases h with
  | seq h h' => exact ⟨_, _, _, h, h', Node.wordTexts_append _ _⟩

/-- A token is tried in the first part of a row, or behind it. -/
theorem Tries.first_or_behind (h : Tries (.once (.seq (.seq e f) g)) here t read there) :
    Tries (.once e) here t read there ∨
      ∃ nodes mid more, Reads (.once e) here (some (nodes, mid)) ∧
        Tries (.once (.seq f g)) (skipGap mid) t more there ∧
        Node.wordTexts read = Node.wordTexts nodes ++ Node.wordTexts more := by
  cases h with
  | seqFirst h =>
    cases h with
    | seqFirst h => exact .inl h
    | seqSecond hfirst h =>
      exact .inr ⟨_, _, _, hfirst, .seqFirst h, Node.wordTexts_append _ _⟩
  | seqSecond hboth h =>
    cases hboth with
    | seq hfirst hsecond =>
      refine .inr ⟨_, _, _, hfirst, .seqSecond hsecond h, ?_⟩
      rw [← Node.wordTexts_append, List.append_assoc]

/-- The same, where it is known what the first part reads. -/
theorem Tries.in_seq (h : Tries (.once (.seq e f)) here t read there)
    (hfirst : Reads (.once e) here (some (nodes, mid))) :
    Tries (.once e) here t read there ∨
      ∃ more, Tries (.once f) (skipGap mid) t more there ∧
        Node.wordTexts read = Node.wordTexts nodes ++ Node.wordTexts more := by
  cases h with
  | seqFirst h => exact .inl h
  | seqSecond hfirst' h =>
    cases hfirst.unique hfirst'
    exact .inr ⟨_, h, Node.wordTexts_append _ _⟩

theorem Reads.wordTexts_landmark (ht : t ∈ Token.landmarks)
    (h : Reads (.once (.token t)) here (some (nodes, stop))) :
    Node.wordTexts nodes = [t.spelling] := by
  have hne : t ≠ .endOfInput := by
    rintro rfl
    exact absurd ht (by decide)
  cases h with
  | token hn =>
    rw [Node.wordTexts_leaf hne, Token.take_eq_spelling ht hn]

theorem Reads.head_eq (ht : t ∈ Token.landmarks)
    (h : Reads (.once (.seq (.token t) e)) here (some (nodes, stop))) :
    (Node.wordTexts nodes).head? = some t.spelling := by
  obtain ⟨_, _, _, hfirst, -, hwords⟩ := h.words_seq
  rw [hwords, hfirst.wordTexts_landmark ht]
  rfl

theorem Reads.last_eq (ht : t ∈ Token.landmarks)
    (h : Reads (.once (.seq e (.token t))) here (some (nodes, stop))) :
    ∃ front, Node.wordTexts nodes = front ++ [t.spelling] := by
  obtain ⟨first, _, _, -, hlast, hwords⟩ := h.words_seq
  exact ⟨Node.wordTexts first, by rw [hwords, hlast.wordTexts_landmark ht]⟩

/-- A balanced match with the mark at its end has the mark outside of all brackets. -/
theorem Reads.marked (h : Reads goal here (some (nodes, stop)))
    (hlevel : goal.whole.level 0 = some 0)
    (hlast : ∃ front, Node.wordTexts nodes = front ++ [mark.spelling]) :
    Marked mark 0 (Node.wordTexts nodes) := by
  obtain ⟨front, hfront⟩ := hlast
  have hrow := h.rowLevel_eq hlevel
  rw [hfront] at hrow ⊢
  exact ⟨front, List.prefix_refl _, hrow⟩

/-- A mark behind a balanced match. -/
theorem Reads.marked_append (h : Reads goal here (some (nodes, stop)))
    (hlevel : goal.whole.level 0 = some 0) (hmore : Marked mark 0 more) :
    Marked mark 0 (Node.wordTexts nodes ++ more) := by
  obtain ⟨front, hpre, hend⟩ := hmore
  refine ⟨Node.wordTexts nodes ++ front, ?_, ?_⟩
  · rw [List.append_assoc]
    exact (List.prefix_append_right_inj _).2 hpre
  · rw [List.append_assoc, rowLevel_append (h.rowLevel_eq hlevel), hend]

/-- A row with a mark is not passed by what overruns no mark. -/
theorem Tries.not_past (h : Tries goal here t read there) (hmark : mark ∈ Token.closing)
    (hlevel : goal.whole.level 0 = some m)
    (hover : goal.whole.overrunsBy (Rule.overrunsTo mark d) mark 0 = false)
    (hwords : Marked mark 0 words) : ¬ words <+: Node.wordTexts read :=
  fun hpre => h.not_marked hmark hlevel hover (hwords.mono hpre)

lemma head_of_front {u : List Char} (h : words <+: more) (hu : words.head? = some u) :
    more.head? = some u := by
  obtain ⟨rest, rfl⟩ := h
  rw [List.head?_append, hu]
  rfl

end Words

/-! ## Declarations -/

section Declarations
variable {here there stop mid : Cursor} {t : Token} {nodes read : List Node}
  {words more : List (List Char)}

/-- What a function definition begins with, and a declaration may. -/
def declared : Expr Rule := .opt (.rule .declarationSpecifiers) ++ .rule .declarator

/-- What may stand behind a declarator in a declaration. -/
def afterDeclarator : List Token :=
  [.punctuator .assign, .punctuator .comma, .punctuator .semi]

/-- What the bodies of the rules show about the parts of a declaration and of a function: they
try no token behind the mark, or they do not begin with the token. -/
structure Bounds : Prop where
  declaration : (Expr.rule Rule.declaration).overrunsBy
    (Rule.overrunsTo (.punctuator .semi) 2) (.punctuator .semi) 0 = false
  declared : declared.overrunsBy
    (Rule.overrunsTo (.punctuator .semi) 0) (.punctuator .semi) 0 = false
  specifier : (Expr.rule Rule.declarationSpecifier).overrunsBy
    (Rule.overrunsTo (.punctuator .rightBrace) 4) (.punctuator .rightBrace) 0 = false
  declarator : (Expr.rule Rule.declarator).overrunsBy
    (Rule.overrunsTo (.punctuator .rightBrace) 0) (.punctuator .rightBrace) 0 = false
  block : (Expr.rule Rule.compoundStatement).overrunsBy
    (Rule.overrunsTo (.punctuator .rightBrace) 1) (.punctuator .rightBrace) 0 = false
  declaration_opens : (Expr.rule Rule.declaration).opens (.punctuator .leftBrace) = false
  function_opens : (Expr.rule Rule.functionDefinition).opens (.keyword .kwStaticAssert) = false
  external_opens : (Expr.alt (.rule .functionDefinition) (.rule Rule.declaration)).opens
    (.punctuator .semi) = false
  body_opens : ∀ t ∈ afterDeclarator, (Expr.seq (.opt (.rule .declarationList))
    (.rule Rule.compoundStatement)).opens t = false

theorem bounds : Bounds := by
  constructor <;> decide +kernel

theorem Reads.last_declaration
    (h : Reads (.once (.rule .declaration)) here (some (nodes, stop))) :
    ∃ front, Node.wordTexts nodes = front ++ [(Token.punctuator .semi).spelling] := by
  obtain ⟨inner, hbody, hwords⟩ := h.words_rule
  rw [hwords]
  cases hbody with
  | first h => exact h.last_eq (by decide)
  | second _ h =>
    obtain ⟨inner, hbody, hwords⟩ := h.words_rule
    rw [hwords]
    exact hbody.last_eq (by decide)

theorem Reads.marked_declaration
    (h : Reads (.once (.rule .declaration)) here (some (nodes, stop))) :
    Marked (.punctuator .semi) 0 (Node.wordTexts nodes) := h.marked rfl h.last_declaration

theorem Reads.last_compoundStatement
    (h : Reads (.once (.rule .compoundStatement)) here (some (nodes, stop))) :
    ∃ front, Node.wordTexts nodes = front ++ [(Token.punctuator .rightBrace).spelling] := by
  obtain ⟨inner, hbody, hwords⟩ := h.words_rule
  rw [hwords]
  exact hbody.last_eq (by decide)

theorem Reads.marked_compoundStatement
    (h : Reads (.once (.rule .compoundStatement)) here (some (nodes, stop))) :
    Marked (.punctuator .rightBrace) 0 (Node.wordTexts nodes) :=
  h.marked rfl h.last_compoundStatement

theorem Reads.head_compoundStatement
    (h : Reads (.once (.rule .compoundStatement)) here (some (nodes, stop))) :
    (Node.wordTexts nodes).head? = some (Token.punctuator .leftBrace).spelling := by
  obtain ⟨inner, hbody, hwords⟩ := h.words_rule
  obtain ⟨_, _, _, hopen, -, hparts⟩ := hbody.words_seq
  rw [hwords, hparts, List.head?_append, hopen.head_eq (by decide)]
  rfl

/-- No token of a declaration is tried behind a semicolon. -/
theorem Tries.not_past_declaration (h : Tries (.once (.rule .declaration)) here t read there)
    (hwords : Marked (.punctuator .semi) 0 words) : ¬ words <+: Node.wordTexts read := by
  exact h.not_past (by decide) rfl bounds.declaration hwords

/-! ## Function definitions -/

/-- Specifiers that are read in front of a row with a closing brace. -/
theorem Tries.not_past_specifiers
    (h : Tries (.once (.opt (.rule .declarationSpecifiers))) (skipGap here) t read there)
    (hreads : Reads (.once (.opt (.rule .declarationSpecifiers))) (skipGap here)
      (some (nodes, mid)))
    (hmore : Marked (.punctuator .rightBrace) 0 more) :
    ¬ Node.wordTexts nodes ++ more <+: Node.wordTexts read := by
  obtain ⟨stop, hagain, -, hwords⟩ := hreads.again_of_opt rfl
  obtain ⟨done, rest, last, place, hnodes, rfl, hrest, hlast⟩ :=
    (h.again_of_opt rfl).in_turn hagain
  rw [← hwords, hnodes, Node.wordTexts_append, Node.wordTexts_append, List.append_assoc,
    List.prefix_append_right_inj]
  exact hlast.not_past (by decide) rfl bounds.specifier (hrest.marked_append rfl hmore)

/-- Declarations that are read in front of a body. -/
theorem Tries.not_past_declarations
    (h : Tries (.once (.opt (.rule .declarationList))) (skipGap here) t read there)
    (hreads : Reads (.once (.opt (.rule .declarationList))) (skipGap here)
      (some (nodes, mid)))
    (hmore : more.head? = some (Token.punctuator .leftBrace).spelling) :
    ¬ Node.wordTexts nodes ++ more <+: Node.wordTexts read := by
  obtain ⟨stop, hagain, -, hwords⟩ := hreads.again_of_opt rfl
  obtain ⟨done, rest, last, place, hnodes, rfl, hrest, hlast⟩ :=
    (h.again_of_opt rfl).in_turn hagain
  rw [← hwords, hnodes, Node.wordTexts_append, Node.wordTexts_append, List.append_assoc,
    List.prefix_append_right_inj]
  cases hrest with
  | again hturn _ =>
    rw [Node.wordTexts_append, List.append_assoc]
    exact hlast.not_past_declaration
      (hturn.marked_declaration.mono (List.prefix_append _ _))
  | enough _ =>
    -- The next declaration was looked for where the body begins.
    intro hpre
    exact hlast.head_ne (by decide) rfl bounds.declaration_opens (head_of_front hpre hmore)

/-- A function definition that was read is not passed by. -/
theorem Reads.extent_function
    (h : Reads (.once (.rule .functionDefinition)) (skipGap here) (some (nodes, stop)))
    (h' : Tries (.once (.rule .functionDefinition)) (skipGap here) t read there) :
    ¬ Node.wordTexts nodes <+: Node.wordTexts read := by
  obtain ⟨inner, hbody, hwords⟩ := h.words_rule
  obtain ⟨front, _, block, hfront, hblock, hparts⟩ := hbody.words_seq
  obtain ⟨start, _, list, hdeclared, hlist, hparts'⟩ := hfront.words_seq
  obtain ⟨specifiers, _, declarator, hspecifiers, hdeclarator, hparts''⟩ := hdeclared.words_seq
  have hclosed := hblock.marked_compoundStatement
  have hclosed' := hdeclarator.marked_append rfl (hlist.marked_append rfl hclosed)
  rw [hwords, hparts]
  cases h' with
  | rule h' =>
    rcases h'.in_seq hfront with h' | ⟨more, h', hread⟩
    · rw [hparts', List.append_assoc]
      rcases h'.in_seq hdeclared with h' | ⟨more, h', hread⟩
      · rw [hparts'', List.append_assoc]
        rcases h'.in_seq hspecifiers with h' | ⟨more, h', hread⟩
        · exact h'.not_past_specifiers hspecifiers hclosed'
        · rw [hread, List.prefix_append_right_inj]
          exact h'.not_past (by decide) rfl bounds.declarator hclosed'
      · rw [hread, List.prefix_append_right_inj]
        exact h'.not_past_declarations hlist hblock.head_compoundStatement
    · rw [hread, List.prefix_append_right_inj]
      exact h'.not_past (by decide) rfl bounds.block hclosed

/-! ## Declarations that are tried as functions -/

/-- Where a declarator is read, the declared names begin with it. -/
theorem Reads.words_initDeclaratorList {names : List Node}
    (h : Reads (.once (.opt (.rule .initDeclaratorList))) here (some (names, stop)))
    (hdeclarator : Reads (.once (.rule .declarator)) here (some (nodes, mid))) :
    ∃ rest, Node.wordTexts names = Node.wordTexts nodes ++ rest ∧
      ∀ u ∈ rest.head?, ∃ t ∈ afterDeclarator, u = t.spelling := by
  cases h with
  | opt h =>
    obtain ⟨list, hlist, hwords⟩ := h.words_rule
    obtain ⟨name, _, names, hname, hnames, hparts⟩ := hlist.words_seq
    obtain ⟨inner, hinner, hwords'⟩ := hname.words_rule
    obtain ⟨declarator, _, value, hdeclarator', hvalue, hparts'⟩ := hinner.words_seq
    cases hdeclarator.unique hdeclarator'
    rw [hwords, hparts, hwords', hparts', List.append_assoc]
    refine ⟨_, rfl, fun u hu => ?_⟩
    cases hvalue with
    | opt hvalue =>
      rw [List.head?_append, hvalue.head_eq (by decide), Option.some_or] at hu
      exact ⟨_, by decide, (Option.some.inj hu).symm⟩
    | noOpt _ =>
      rw [Node.wordTexts_nil, List.nil_append] at hu
      cases hnames with
      | many hturn _ =>
        rw [Node.wordTexts_append, List.head?_append, hturn.head_eq (by decide),
          Option.some_or] at hu
        exact ⟨_, by decide, (Option.some.inj hu).symm⟩
      | noMany _ => cases hu
  | noOpt h =>
    -- Without names there is no declarator.
    cases h with
    | noRule h =>
      cases h with
      | noFirst h =>
        cases h with
        | noRule h =>
          cases h with
          | noFirst h => cases h.unique hdeclarator
          | noSecond _ h => cases h
      | noSecond _ h => cases h

/-- Behind specifiers and a declarator a declaration goes on with a value, a further name or
its end. -/
theorem Reads.behind_declarator {start : List Node}
    (h : Reads (.once (.seq (.seq (.rule .declarationSpecifiers)
      (.opt (.rule .initDeclaratorList))) (.token (.punctuator .semi)))) here
      (some (nodes, stop)))
    (hdeclared : Reads (.once declared) here (some (start, mid))) :
    ∃ rest, Node.wordTexts nodes = Node.wordTexts start ++ rest ∧
      ∃ t ∈ afterDeclarator, rest.head? = some t.spelling := by
  obtain ⟨front, _, semi, hfront, hsemi, hparts⟩ := h.words_seq
  obtain ⟨specifiers, _, names, hspecifiers, hnames, hparts'⟩ := hfront.words_seq
  obtain ⟨specifiers', _, declarator, hspecifiers', hdeclarator, hparts''⟩ :=
    hdeclared.words_seq
  cases (Reads.opt hspecifiers).unique hspecifiers'
  obtain ⟨rest, hrest, hhead⟩ := hnames.words_initDeclaratorList hdeclarator
  refine ⟨rest ++ [(Token.punctuator .semi).spelling], ?_, ?_⟩
  · rw [hparts, hparts', hparts'', hrest, hsemi.wordTexts_landmark (by decide)]
    simp only [List.append_assoc]
  · cases rest with
    | nil => exact ⟨.punctuator .semi, by decide, rfl⟩
    | cons u rest =>
      obtain ⟨t, ht, rfl⟩ := hhead u rfl
      exact ⟨t, ht, rfl⟩

/-- A declaration that was read is not passed by where it is tried as a function definition. -/
theorem Reads.extent_declaration
    (h : Reads (.once (.rule .declaration)) here (some (nodes, stop)))
    (h' : Tries (.once (.rule .functionDefinition)) here t read there) :
    ¬ Node.wordTexts nodes <+: Node.wordTexts read := by
  have hmarked := h.marked_declaration
  obtain ⟨inner, hbody, hwords⟩ := h.words_rule
  rw [hwords] at hmarked ⊢
  cases hbody with
  | first hbody =>
    cases h' with
    | rule h' =>
      rcases h'.first_or_behind with hfirst | ⟨start, mid, more, hdeclared, hbehind, hread⟩
      · exact hfirst.not_past (by decide) rfl bounds.declared hmarked
      · obtain ⟨rest, hrest, t, ht, hhead⟩ := hbody.behind_declarator hdeclared
        -- Neither a declaration nor a body begins there.
        have hall : ∀ t ∈ afterDeclarator, t ∈ Token.landmarks := by decide
        rw [hrest, hread, List.prefix_append_right_inj]
        intro hpre
        exact hbehind.head_ne (hall t ht) rfl (bounds.body_opens t ht)
          (head_of_front hpre hhead)
  | second _ hassert =>
    obtain ⟨inner, hassert, hwords⟩ := hassert.words_rule
    obtain ⟨front, _, _, hfront, -, hparts⟩ := hassert.words_seq
    have hlandmark : Token.keyword .kwStaticAssert ∈ Token.landmarks := by decide
    rw [hwords, hparts]
    intro hpre
    exact h'.head_ne hlandmark rfl bounds.function_opens
      (head_of_front ((List.prefix_append _ _).trans hpre) (hfront.head_eq hlandmark))

/-- What an external declaration ends with. -/
theorem Reads.closing_externalDeclaration
    (h : Reads (.once (.rule .externalDeclaration)) here (some (nodes, stop))) :
    ∃ front, ∃ mark ∈ Token.closing, Node.wordTexts nodes = front ++ [mark.spelling] := by
  obtain ⟨inner, hbody, hwords⟩ := h.words_rule
  rw [hwords]
  cases hbody with
  | first hleft =>
    cases hleft with
    | first hfunction =>
      obtain ⟨inner, hbody, hwords⟩ := hfunction.words_rule
      obtain ⟨start, _, block, -, hblock, hparts⟩ := hbody.words_seq
      obtain ⟨front, hfront⟩ := hblock.last_compoundStatement
      refine ⟨Node.wordTexts start ++ front, .punctuator .rightBrace, by decide, ?_⟩
      rw [hwords, hparts, hfront, List.append_assoc]
    | second _ hdeclaration =>
      obtain ⟨front, hfront⟩ := hdeclaration.last_declaration
      exact ⟨front, .punctuator .semi, by decide, hfront⟩
  | second _ hsemi =>
    exact ⟨[], .punctuator .semi, by decide, hsemi.wordTexts_landmark (by decide)⟩

/-- An external declaration that was read is not passed by. -/
theorem Reads.extent
    (h : Reads (.once (.rule .externalDeclaration)) (skipGap here) (some (nodes, stop)))
    (h' : Tries (.once (.rule .externalDeclaration)) (skipGap here) t read there) :
    ¬ Node.wordTexts nodes <+: Node.wordTexts read := by
  have hno : ∀ {e : Expr Rule} {ns mid}, Reads (.once e) (skipGap here) (some (ns, mid)) →
      ¬ Reads (.once e) (skipGap here) none := fun hsome hnone => nomatch hsome.unique hnone
  obtain ⟨inner, hbody, hwords⟩ := h.words_rule
  rw [hwords]
  cases h' with
  | rule h' =>
    cases hbody with
    | first hleft =>
      cases h' with
      | altSecond hnone _ => exact absurd hnone (hno hleft)
      | altFirst h' =>
        cases hleft with
        | first hfunction =>
          cases h' with
          | altFirst h' => exact hfunction.extent_function h'
          | altSecond hnone _ => exact absurd hnone (hno hfunction)
        | second _ hdeclaration =>
          cases h' with
          | altFirst h' => exact hdeclaration.extent_declaration h'
          | altSecond _ h' => exact h'.not_past_declaration hdeclaration.marked_declaration
    | second _ hsemi =>
      rw [hsemi.wordTexts_landmark (by decide)]
      intro hpre
      have hhead := head_of_front hpre rfl
      cases h' with
      | altFirst h' => exact h'.head_ne (by decide) rfl bounds.external_opens hhead
      | altSecond _ h' =>
        cases h' with
        | token => cases hhead

end Declarations
end CTree.Parse
