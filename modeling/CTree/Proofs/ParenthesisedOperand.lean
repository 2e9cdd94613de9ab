import CTree.Proofs.FramedText
import CTree.Proofs.LayoutIndependence
import CTree.Proofs.LeadingTokens
import CTree.Proofs.RuleLanguage

/-!
# Operands in parentheses

An expression in parentheses is a primary expression. But what stands in parentheses in
front of an operator is read as a type if it can be read as one, for names of types are not
known: the operator is then a sign. In all other cases it is an operand.
-/
namespace CTree.Lexical

/-- Nothing between the parenthesis and the text behind the plus closes a comment. -/
theorem closesNoMore_plus {s : List Char} (h : ¬ ['*', '/'] <:+: s) :
    ClosesNoMore [] (')' :: ' ' :: '+' :: ' ' :: s) := by
  have hskip : ∀ {d r}, d ∉ ['*', '/'] → ['*', '/'] <:+: d :: r → ['*', '/'] <:+: r := by
    intro d r hd hr
    exact (closed_of_closed_append (s := []) hd hr).resolve_left (by decide)
  exact closesNoMore_cons (by decide) fun hclosed =>
    h (hskip (by decide) (hskip (by decide) (hskip (by decide) hclosed)))

end CTree.Lexical

namespace CTree.Parse
open CTree.Grammar CTree.Lexical CTree.Lexical.Pattern CTree.Text

/-! ## Readings of a parenthesis -/

section
variable {offset : Nat} {s rest : List Char} {body : Expr Rule} {nodes : List Node}

/-- A mark of one character is read unless a character follows that goes on with it. -/
theorem reads_mark {p : Punctuator} {c : Char} (hp : p.text.toList = [c])
    (hnot : ∀ d ∈ s.head?, d ∉ p.entry.notBefore.toList) :
    Reads (.once (.token (.punctuator p))) ⟨offset, c :: s⟩
      (some ([.leaf (.punctuator p) offset [c]], ⟨offset + c.utf8Size, s⟩)) := by
  have hwidth : (Token.punctuator p).width? (c :: s) = some 1 :=
    width?_punctuator_eq_some.2 ⟨by rw [hp]; exact ⟨s, rfl⟩, by rw [hp]; rfl, hnot⟩
  exact .token (n := 1) hwidth

theorem reads_leftParen (offset : Nat) (s : List Char) :
    Reads (.once (.token (.punctuator .leftParen))) ⟨offset, '(' :: s⟩
      (some ([.leaf (.punctuator .leftParen) offset ['(']], ⟨offset + 1, s⟩)) :=
  reads_mark rfl fun _ _ h => by cases h

theorem reads_rightParen (offset : Nat) (s : List Char) :
    Reads (.once (.token (.punctuator .rightParen))) ⟨offset, ')' :: s⟩
      (some ([.leaf (.punctuator .rightParen) offset [')']], ⟨offset + 1, s⟩)) :=
  reads_mark rfl fun _ _ h => by cases h

theorem reads_plus (offset : Nat) (s : List Char) :
    Reads (.once (.token (.punctuator .plus))) ⟨offset, '+' :: ' ' :: s⟩
      (some ([.leaf (.punctuator .plus) offset ['+']], ⟨offset + 1, ' ' :: s⟩)) := by
  refine reads_mark rfl fun d hd => ?_
  obtain rfl : ' ' = d := by simpa using hd
  decide

lemma skipGap_space (offset : Nat) (s : List Char) :
    skipGap ⟨offset, ' ' :: s⟩ = skipGap ⟨offset + 1, s⟩ := by
  rw [skipGap, skipGap, gapWidth_blank (by decide), Nat.add_comm]
  rfl

lemma skipGap_blank {s : List Char} (hgap : gapWidth s = 0) (offset : Nat) :
    skipGap ⟨offset, ' ' :: s⟩ = ⟨offset + 1, s⟩ := by
  rw [skipGap_space]
  exact skipGap_of_gapWidth hgap

lemma skipGap_plus (offset : Nat) (s : List Char) :
    skipGap ⟨offset, '+' :: s⟩ = ⟨offset, '+' :: s⟩ :=
  skipGap_of_gapWidth (gapWidth_eq_zero_of_mayBegin (t := .punctuator .plus) rfl (by decide) s)

lemma skipGap_leftParen (offset : Nat) (s : List Char) :
    skipGap ⟨offset, '(' :: s⟩ = ⟨offset, '(' :: s⟩ :=
  skipGap_of_gapWidth
    (gapWidth_eq_zero_of_mayBegin (t := .punctuator .leftParen) rfl (by decide) s)

lemma skipGap_rightParen (offset : Nat) (s : List Char) :
    skipGap ⟨offset, ')' :: s⟩ = ⟨offset, ')' :: s⟩ :=
  skipGap_of_gapWidth
    (gapWidth_eq_zero_of_mayBegin (t := .punctuator .rightParen) rfl (by decide) s)

/-- A part in parentheses. -/
theorem Reads.parenthesised {mid : Nat}
    (h : Reads (.once body) (skipGap ⟨offset + 1, s⟩) (some (nodes, ⟨mid, ')' :: rest⟩))) :
    Reads (.once (Expr.parenthesised body)) ⟨offset, '(' :: s⟩
      (some ([.leaf (.punctuator .leftParen) offset ['(']] ++ nodes ++
        [.leaf (.punctuator .rightParen) mid [')']], ⟨mid + 1, rest⟩)) :=
  .seq (.seq (reads_leftParen offset s) h)
    (by rw [skipGap_rightParen]; exact reads_rightParen mid rest)

lemma toTree_punctuator (p : Punctuator) (start : Nat) (c : Char) :
    (Node.leaf (.punctuator p) start [c]).toTree = .leaf (String.ofList [c]) :=
  Node.toTree_leaf nofun (List.cons_ne_nil c [])

end

/-- An expression in parentheses is a primary expression, and it keeps its tree. -/
theorem parentheses_keep_tree {e : List Char} {inner : Node} (he : Matches .expression e inner)
    (he' : Trimmed e inner) :
    ∃ root, Matches .primaryExpression ("(".toList ++ e ++ ")".toList) root ∧
      root.toTree = .nary "primaryExpression" [.leaf "(", inner.toTree, .leaf ")"] := by
  have htext : "(".toList ++ e ++ ")".toList = '(' :: (e ++ [')']) := by simp
  rw [htext]
  obtain ⟨front, last, -, hlevel, hframed⟩ := he.framed_mark (by decide) he' ')' []
    (by decide) (by decide)
  obtain ⟨inner', hreads, hrose⟩ := hframed.reads (by decide) he 1
    fun _ => not_astray_of_balanced hlevel
  have hother : Reads (.once (.alt (.alt (.token .constant)
      (Expr.oneOrMore (.token .stringLiteral))) (.token .identifier)))
      ⟨0, '(' :: (e ++ [')'])⟩ none := reads_none_of_lone 0 (lone_leftParen _) rfl
  have hprimary := Reads.rule (r := .primaryExpression)
    (.first (.second hother hreads.parenthesised))
  have htree : inner'.toTree = inner.toTree := by rw [Node.toTree, Node.toTree, hrose]
  refine ⟨_, hprimary.matches_of_end rfl, ?_⟩
  simp only [Node.toTree_branch, List.map_append, List.map_cons, List.map_nil, toTree_punctuator,
    htree]
  rfl

theorem parentheses_keep_tree_comma : ∃ inner, Matches .expression "a, b".toList inner ∧
    Trimmed "a, b".toList inner ∧
    ∃ root, Matches .primaryExpression ("(".toList ++ "a, b".toList ++ ")".toList) root ∧
      root.toTree = .nary "primaryExpression" [.leaf "(", inner.toTree, .leaf ")"] := by
  obtain ⟨inner, he, he'⟩ := exists_trimmed .expression "a, b".toList
    (by decide +kernel) (by decide +kernel)
  exact ⟨inner, he, he', parentheses_keep_tree he he'⟩

/-! ## In front of an operator -/

section
variable {offset : Nat} {s rest : List Char}

/-- The tree of an expression in parentheses as an operand. -/
def operandTree (inner : Tree) : Tree :=
  .unary "multiplicativeExpression" (.unary "castExpression" (.unary "unaryExpression"
    (.unary "postfixExpression" (.nary "primaryExpression" [.leaf "(", inner, .leaf ")"]))))

/-- The tree of a sign with what it stands in front of, under a type in parentheses. -/
def castTree (type operand : Tree) : Tree :=
  .nary "castExpression" [.leaf "(", type, .leaf ")",
    .unary "castExpression" (.nary "unaryExpression" [.unary "unaryOperator" (.leaf "+"), operand])]

/-- In front of a plus, an expression in parentheses is an operand if it is not a type. -/
theorem reads_operand {mid : Nat} {inner : Node}
    (hno : Reads (.once (Expr.parenthesised (.rule .typeName) ++ .rule .castExpression))
      ⟨offset, '(' :: s⟩ none)
    (h : Reads (.once (.rule .expression)) (skipGap ⟨offset + 1, s⟩)
      (some ([inner], ⟨mid, ')' :: ' ' :: '+' :: ' ' :: rest⟩))) :
    ∃ root, Reads (.once (.rule .multiplicativeExpression)) ⟨offset, '(' :: s⟩
        (some ([root], ⟨mid + 2, '+' :: ' ' :: rest⟩)) ∧
      root.toTree = operandTree inner.toTree := by
  have hskip : skipGap ⟨mid + 1, ' ' :: '+' :: ' ' :: rest⟩ = ⟨mid + 2, '+' :: ' ' :: rest⟩ := by
    rw [skipGap_space, skipGap_plus]
  have hprimary := Reads.rule (r := .primaryExpression)
    (.first (.second (reads_none_of_lone 1 (lone_leftParen s) rfl) h.parenthesised))
  have hpostfix := Reads.rule (r := .postfixExpression) (.seq (.first hprimary)
    (by rw [hskip]; exact .noMany (reads_none_of_lone 1 (lone_plus rest) rfl)))
  have hunary := Reads.rule (r := .unaryExpression)
    (.second (reads_none_of_lone 1 (lone_leftParen s) rfl) hpostfix)
  have hcast := Reads.rule (r := .castExpression) (.second hno hunary)
  have hmult := Reads.rule (r := .multiplicativeExpression) (.seq hcast
    (by rw [skipGap_plus]; exact .noMany (reads_none_of_lone 1 (lone_plus rest) rfl)))
  refine ⟨_, hmult, ?_⟩
  simp only [Node.toTree_branch, List.append_nil, List.map_append, List.map_cons, List.map_nil,
    toTree_punctuator]
  rfl

/-- A sum of two products. -/
theorem reads_sum {mid stop : Nat} {left right : Node} {here : Cursor}
    (hleft : Reads (.once (.rule .multiplicativeExpression)) here
      (some ([left], ⟨mid, '+' :: ' ' :: rest⟩)))
    (hright : Reads (.once (.rule .multiplicativeExpression)) (skipGap ⟨mid + 2, rest⟩)
      (some ([right], ⟨stop, []⟩))) :
    ∃ root, Reads (.once (.rule .additiveExpression)) here (some ([root], ⟨stop, []⟩)) ∧
      root.toTree = .nary "additiveExpression" [left.toTree, .leaf "+", right.toTree] := by
  have hend : skipGap ⟨stop, []⟩ = ⟨stop, []⟩ := skipGap_of_gapWidth rfl
  have hturn : Reads (.once ((Expr.punct .plus ||| Expr.punct .minus) ++
      .rule .multiplicativeExpression)) ⟨mid, '+' :: ' ' :: rest⟩
      (some ([.leaf (.punctuator .plus) mid ['+']] ++ [right], ⟨stop, []⟩)) :=
    .seq (.first (reads_plus mid rest)) (by rw [skipGap_space]; exact hright)
  have hmore := Reads.many hturn
    (.enough (by rw [hend]; exact reads_none_of_lone 1 lone_endOfInput rfl))
  have hsum := Reads.rule (r := .additiveExpression) (.seq hleft
    (by rw [skipGap_plus]; exact hmore))
  refine ⟨_, hsum, ?_⟩
  simp only [Node.toTree_branch, List.append_nil, List.map_append, List.map_cons, List.map_nil,
    toTree_punctuator]
  rfl

/-- In front of a plus, an expression in parentheses is cast to if it is a type, and the
plus is a sign. -/
theorem reads_cast {mid stop : Nat} {type right : Node}
    (htype : Reads (.once (.rule .typeName)) (skipGap ⟨offset + 1, s⟩)
      (some ([type], ⟨mid, ')' :: ' ' :: '+' :: ' ' :: rest⟩)))
    (hright : Reads (.once (.rule .multiplicativeExpression)) (skipGap ⟨mid + 4, rest⟩)
      (some ([right], ⟨stop, []⟩))) :
    ∃ root operand more,
      Reads (.once (.rule .additiveExpression)) ⟨offset, '(' :: s⟩ (some ([root], ⟨stop, []⟩)) ∧
      right.children.map Node.toTree = operand :: more ∧
      root.toTree = .unary "additiveExpression"
        (.ofParts "multiplicativeExpression" (castTree type.toTree operand :: more)) := by
  have hend : skipGap ⟨stop, []⟩ = ⟨stop, []⟩ := skipGap_of_gapWidth rfl
  have hskip : skipGap ⟨mid + 1, ' ' :: '+' :: ' ' :: rest⟩ = ⟨mid + 2, '+' :: ' ' :: rest⟩ := by
    rw [skipGap_space, skipGap_plus]
  cases hright with
  | rule hbody =>
    cases hbody with
    | seq hfirst hmore =>
      cases hfirst with
      | @rule _ _ nodes mid' hoperand =>
        have hsign := Reads.rule (r := .unaryOperator) (.first (.first (.first (.second
          (reads_none_of_lone 1 (lone_plus rest) rfl) (reads_plus (mid + 2) rest)))))
        have hunary := Reads.rule (r := .unaryExpression) (.first (.second
          (reads_none_of_lone 1 (lone_plus rest) rfl)
          (.seq hsign (by rw [skipGap_space]; exact .rule hoperand))))
        have hinner := Reads.rule (r := .castExpression) (.second
          (reads_none_of_lone 1 (lone_plus rest) rfl) hunary)
        have hcast := Reads.rule (r := .castExpression) (.first
          (.seq htype.parenthesised (by rw [hskip]; exact hinner)))
        have hmult := Reads.rule (r := .multiplicativeExpression) (.seq hcast hmore)
        have hsum := Reads.rule (r := .additiveExpression) (.seq hmult
          (by rw [hend]; exact .noMany (reads_none_of_lone 1 lone_endOfInput rfl)))
        refine ⟨_, _, _, hsum, rfl, ?_⟩
        simp only [Node.toTree_branch, List.append_nil, List.map_append, List.map_cons,
          List.map_nil, toTree_punctuator]
        rfl

end

theorem Node.map_toTree_children (node : Node) :
    node.children.map toTree = node.toRose.children.map Rose.toTree := by
  cases node with
  | leaf t start text => cases t <;> cases text <;> rfl
  | branch r start stop children =>
    show children.map toTree = (toRoses children).map Rose.toTree
    induction children with
    | nil => rfl
    | cons n ns ih =>
      rw [toRoses, List.map_cons, List.map_cons, ih]
      rfl

/-- An expression in parentheses, a plus and a product are a sum, and the expression is its
first operand, unless all of it can be read as a type: then the plus is a sign, and what it
stands in front of is cast. If the expression has a slash right in front of a star, the
product must not close the comment that this would be. -/
theorem parenthesised_operand {e c : List Char} {inner right : Node}
    (he : Matches .expression e inner) (he' : Trimmed e inner)
    (hc : Matches .multiplicativeExpression c right) (hc' : Trimmed c right)
    (hmark : (Node.words [inner]).IsChain (fun a b => ¬ a.Opens b) ∨ ¬ ['*', '/'] <:+: c) :
    ∃ root, Matches .additiveExpression ("(".toList ++ e ++ ") + ".toList ++ c) root ∧
      ((∀ type, ¬ Matches .typeName e type) →
        root.toTree = .nary "additiveExpression"
          [operandTree inner.toTree, .leaf "+", right.toTree]) ∧
      (∀ type, Matches .typeName e type → ∃ operand more,
        right.children.map Node.toTree = operand :: more ∧
        root.toTree = .unary "additiveExpression"
          (.ofParts "multiplicativeExpression" (castTree type.toTree operand :: more))) := by
  have htext : "(".toList ++ e ++ ") + ".toList ++ c =
      '(' :: (e ++ ')' :: ' ' :: '+' :: ' ' :: c) := by simp
  rw [htext]
  have hgap : gapWidth (')' :: ' ' :: '+' :: ' ' :: c) = 0 :=
    gapWidth_eq_zero_of_mayBegin (t := .punctuator .rightParen) rfl (by decide) _
  obtain ⟨front, last, hwords, hframed⟩ := he.framed (by decide) he' (outside_cons.2 rfl) hgap
    (hmark.imp_right closesNoMore_plus)
  obtain ⟨front', last', -, hframed'⟩ := hc.framed (by decide) hc' (outside_nil _) rfl
    (.inr closesNoMore_nil)
  have hlevel : rowLevel 0 (front ++ [last]) = some 0 := by
    rw [← hwords]
    exact (matches_iff.1 he).rowLevel_eq (n := 0) rfl
  -- The product is read as it is alone.
  obtain ⟨right', hright, hrose⟩ := hframed'.reads (by decide) hc (1 + byteCount e + 4)
    fun _ => not_astray barren_nil barren_nil
  rw [List.append_nil] at hright
  have htotal : byteCount ('(' :: (e ++ ')' :: ' ' :: '+' :: ' ' :: c)) =
      1 + byteCount e + 4 + byteCount c := by
    have hone : '('.utf8Size = 1 ∧ ')'.utf8Size = 1 ∧ ' '.utf8Size = 1 ∧ '+'.utf8Size = 1 := by
      decide
    simp only [byteCount_cons, byteCount_append, hone]
    omega
  rw [← htotal] at hright
  by_cases htype : ∃ type, Matches .typeName e type
  · obtain ⟨type, htype⟩ := htype
    obtain ⟨type', hreads, htypeRose⟩ := hframed.reads (by decide) htype 1
      fun _ => not_astray_of_balanced hlevel
    obtain ⟨root, operand, more, hroot, hparts, htree⟩ := reads_cast hreads hright
    refine ⟨root, matches_iff.2 hroot, fun hno => absurd htype (hno type), fun other hother => ?_⟩
    obtain rfl := htype.unique hother
    refine ⟨operand, more, ?_, ?_⟩
    · rw [← hparts, Node.map_toTree_children, Node.map_toTree_children, hrose]
    · rw [htree, Node.toTree, Node.toTree, htypeRose]
  · have hnone : ∀ type, ¬ Matches .typeName e type := fun type h => htype ⟨type, h⟩
    obtain ⟨inner', hreads, hinnerRose⟩ := hframed.reads (by decide) he 1
      fun _ => not_astray_of_balanced hlevel
    have hno : Reads (.once (Expr.parenthesised (.rule .typeName) ++ .rule .castExpression))
        ⟨0, '(' :: (e ++ ')' :: ' ' :: '+' :: ' ' :: c)⟩ none := by
      rcases hframed.no_paren (by decide) hlevel hnone 1 with hfail | ⟨nodes, mid, hread, hfail⟩
      · exact .noFirst (.noFirst (.noSecond (reads_leftParen 0 _) hfail))
      · exact .noFirst (.noSecond (.seq (reads_leftParen 0 _) hread) (.noToken hfail))
    obtain ⟨left, hleft, hleftTree⟩ := reads_operand hno hreads
    obtain ⟨root, hroot, htree⟩ := reads_sum hleft hright
    refine ⟨root, matches_iff.2 hroot, fun _ => ?_, fun type h => absurd h (hnone type)⟩
    rw [htree, hleftTree, Node.toTree, Node.toTree, Node.toTree, Node.toTree, hinnerRose, hrose]

theorem parenthesised_operand_identifier : ∃ inner right,
    Matches .expression ['a'] inner ∧ Trimmed ['a'] inner ∧
    Matches .multiplicativeExpression ['c'] right ∧ Trimmed ['c'] right ∧
    ∃ root, Matches .additiveExpression ("(".toList ++ ['a'] ++ ") + ".toList ++ ['c']) root ∧
      root.toTree = .nary "additiveExpression"
        [operandTree inner.toTree, .leaf "+", right.toTree] := by
  obtain ⟨inner, he, he'⟩ := exists_trimmed .expression ['a']
    (by decide +kernel) (by decide +kernel)
  obtain ⟨right, hc, hc'⟩ := exists_trimmed .multiplicativeExpression ['c']
    (by decide +kernel) (by decide +kernel)
  obtain ⟨root, hroot, hoperand, -⟩ := parenthesised_operand he he' hc hc' (.inr (by decide))
  have hnone : (parseWith (.rule .typeName) ['a']).toOption.isNone = true := by decide +kernel
  refine ⟨inner, right, he, he', hc, hc', root, hroot, hoperand fun type htype => ?_⟩
  rw [htype.parse] at hnone
  cases hnone

/-- A product with a factor in parentheses can be read as the type of a function that returns
a pointer. -/
theorem parenthesised_product_cast : ∃ inner right root,
    Matches .expression "a*(b)".toList inner ∧ Trimmed "a*(b)".toList inner ∧
    Matches .multiplicativeExpression ['c'] right ∧ Trimmed ['c'] right ∧
    Matches .additiveExpression "(a*(b)) + c".toList root ∧
    root.toTree ≠ .nary "additiveExpression"
      [operandTree inner.toTree, .leaf "+", right.toTree] := by
  obtain ⟨inner, he, he'⟩ := exists_trimmed .expression "a*(b)".toList
    (by decide +kernel) (by decide +kernel)
  obtain ⟨right, hc, hc'⟩ := exists_trimmed .multiplicativeExpression ['c']
    (by decide +kernel) (by decide +kernel)
  obtain ⟨root, hroot, -⟩ := exists_trimmed .additiveExpression "(a*(b)) + c".toList
    (by decide +kernel) (by decide +kernel)
  refine ⟨inner, right, root, he, he', hc, hc', hroot, ?_⟩
  have hparts : (parseWith (.rule .additiveExpression) "(a*(b)) + c".toList).toOption.map
      (·.children.length) = some 1 := by decide +kernel
  rw [hroot.parse] at hparts
  have hlength := Option.some.inj hparts
  cases matches_iff.1 hroot with
  | @rule _ _ nodes _ _ =>
    obtain ⟨part, hpart⟩ : ∃ part, nodes = [part] := List.length_eq_one_iff.1 hlength
    rw [Node.toTree_branch, hpart]
    nofun

end CTree.Parse
