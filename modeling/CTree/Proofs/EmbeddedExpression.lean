import CTree.Proofs.ParenthesisedOperand

/-!
# Expressions in other constructs

Where an expression may stand in the place of a declaration or of the name of a type, these
are tried first, and what was read of them is not given up if something is left. There are
two such places: the head of a loop and the argument of an alignment. An expression that
begins with an identifier and a star is read there as a declaration as far as it goes, for
the identifier may be the name of a type; no other expression is.
-/
namespace CTree.Grammar
open CTree.Lexical

/-- The reserved words that an expression or a statement may begin with. -/
def operators : List Keyword :=
  [.kwSizeof, .kwAlignof, .kwGeneric, .kwCase, .kwDefault, .kwIf, .kwSwitch, .kwWhile, .kwDo,
   .kwFor, .kwGoto, .kwContinue, .kwBreak, .kwReturn]

/-- A reserved word that no expression and no statement begins with. -/
def declares : Token → Bool
  | .keyword k => k ∉ operators
  | _ => false

/-- The tokens that an operand begins with, but for the parenthesis. -/
def isOperand (t : Token) : Bool := t ∈ [Token.identifier, .constant, .stringLiteral]

/-- The name of a type, which an identifier or a star has to follow. -/
def named : Expr Rule :=
  .rule .typedefName ++ .ahead (.token .identifier ||| Expr.punct .star)

/-- What a declaration and the name of a type begin with. -/
def announces : Expr Rule → Bool
  | .token t => declares t
  | e => e = named

theorem announces_iff {e : Expr Rule} :
    announces e = true ↔ e = named ∨ ∃ k, e = .token (.keyword k) ∧ k ∉ operators := by
  cases e with
  | token t => cases t <;> simp [announces, declares, named]
  | nothing | rule _ | seq _ _ | alt _ _ | opt _ | many _ | ahead _ => simp [announces]

end CTree.Grammar

namespace CTree.Parse
open CTree.Grammar CTree.Lexical CTree.Lexical.Pattern CTree.Text

/-! ## Names of types -/

section
variable {here stop : Cursor} {words : List Leaf}

/-- Behind an identifier no snag is left where another identifier or a star is read. -/
theorem outside_snags_of_named (mid : Cursor)
    (h : ∃ t ∈ [Token.identifier, .punctuator .star], t.width? (skipGap mid).rest ≠ none) :
    Outside Token.identifier.snags mid.rest := by
  obtain ⟨t, ht, hread⟩ := h
  intro c hc
  by_contra hsnag
  have hstuck : Stuck .identifier mid :=
    ⟨c, _, List.eq_cons_of_mem_head? hc, by simpa using hsnag⟩
  have hclash : ∀ t ∈ [Token.identifier, .punctuator .star],
      Token.identifier.clash t = false := by decide
  rw [hstuck.skipGap_eq, hstuck.width?_eq_none (hclash t ht)] at hread
  exact hread rfl

/-- Where an identifier or a star follows an identifier, the second word is one, or a literal
that begins with an identifier. -/
theorem Passes.second_of_named {t : Token} {n : Nat} (h : Passes here words stop)
    (hgap : gapWidth here.rest = 0) (hend : stop.rest = [])
    (hn : Token.identifier.width? here.rest = some n)
    (ht : t ∈ [Token.identifier, .punctuator .star])
    (hread : t.width? (skipGap (here.advance n)).rest ≠ none) :
    ∃ v, [.identifier, v] <+: words.map (·.token) ∧
      (isOperand v = true ∨ v = .punctuator .star) := by
  have hsnag := outside_snags_of_named _ ⟨t, ht, hread⟩
  rw [Cursor.advance_rest] at hsnag
  have hlone := lone_of_isWord rfl hn hsnag
  cases words with
  | nil =>
    obtain rfl := h.stop_eq hgap
    rw [hend] at hn
    cases hn
  | cons w words =>
    obtain ⟨hw, hmore⟩ := h.next_of_lone hgap hlone hn
    cases words with
    | nil =>
      have hskip := hmore.nothing
      rw [skipGap_of_gapWidth (by rw [hend]; rfl)] at hskip
      rw [← hskip, hend] at hread
      exact absurd (barren_nil t (by rintro rfl; exact absurd ht (by decide))) hread
    | cons v words =>
      obtain ⟨m, hm, -⟩ := hmore.next
      obtain ⟨k, hk⟩ := Option.ne_none_iff_exists'.1 hread
      refine ⟨v.token, by rw [List.map_cons, List.map_cons, hw]; exact ⟨_, rfl⟩, ?_⟩
      rcases List.mem_pair.1 ht with rfl | rfl
      · have hmem := mem_of_width?_identifier (hmore.token_ne v List.mem_cons_self) hk hm
        exact .inl (decide_eq_true hmem)
      · exact .inr ((lone_star hk).eq hm)

/-- A name of a type is read in front of an identifier or a star only. -/
theorem reads_none_named (h : Passes here words stop) (hgap : gapWidth here.rest = 0)
    (hend : stop.rest = [])
    (hno : ∀ v, [.identifier, v] <+: words.map (·.token) →
      ¬ (isOperand v = true ∨ v = .punctuator .star)) : Reads (.once named) here none := by
  cases hn : Token.identifier.width? here.rest with
  | none => exact .noFirst (.noRule (.noToken hn))
  | some n =>
    have hfollow : ∀ t ∈ [Token.identifier, .punctuator .star],
        t.width? (skipGap (here.advance n)).rest = none := by
      intro t ht
      by_contra hread
      obtain ⟨v, hpre, hv⟩ := h.second_of_named hgap hend hn ht hread
      exact hno v hpre hv
    exact .noSecond (.rule (.token hn)) (.noAhead (.second (.noToken (hfollow _ (by decide)))
      (.noToken (hfollow _ (by decide)))))

/-- In front of a star, an identifier is the name of a type. -/
theorem reads_typeSpecifier (h : Passes here words stop) (hgap : gapWidth here.rest = 0)
    (hpre : [.identifier, .punctuator .star] <+: words.map (·.token)) :
    ∃ nodes mid, Reads (.once (.rule .typeSpecifier)) here (some (nodes, mid)) := by
  obtain ⟨rest, hrest⟩ := hpre
  obtain ⟨w, words, rfl, hw, htail⟩ := List.map_eq_cons_iff.1 hrest.symm
  obtain ⟨v, words, rfl, hv, -⟩ := List.map_eq_cons_iff.1 htail
  obtain ⟨n, hn, -, -, hmore⟩ := h.next
  rw [skipGap_of_gapWidth hgap, hw] at hn
  rw [skipGap_of_gapWidth hgap] at hmore
  obtain ⟨m, hm, -⟩ := hmore.next
  rw [hv] at hm
  have hsnag := outside_snags_of_named (here.advance n)
    ⟨.punctuator .star, by decide, by rw [hm]; nofun⟩
  rw [Cursor.advance_rest] at hsnag
  have hlone := lone_of_isWord rfl hn hsnag
  have hahead : Reads (.once (.ahead (.alt (.token .identifier) (.token (.punctuator .star)))))
      (skipGap (here.advance n)) (some ([], skipGap (here.advance n))) :=
    .ahead (.second (.noToken (lone_star hm .identifier nofun)) (.token hm))
  exact ⟨_, _, .rule (.second (reads_none_of_lone 2 hlone rfl) (.seq (.rule (.token hn)) hahead))⟩

end

/-! ## What is tried first -/

section
variable {e f : Expr Rule} {here : Cursor}

lemma reads_none_body {r : Rule} (h : Reads (.once (.rule r)) here none) :
    Reads (.once r.body) here none := by
  cases h with
  | noRule h => exact h

lemma reads_none_of_seq_opt (h : Reads (.once (.seq e (.opt f))) here none) :
    Reads (.once e) here none := by
  cases h with
  | noFirst h => exact h
  | noSecond _ h => cases h

lemma reads_none_of_seq_many (h : Reads (.once (.seq e (.many f))) here none) :
    Reads (.once e) here none := by
  cases h with
  | noFirst h => exact h
  | noSecond _ h => cases h

end

/-- What the rules show of two of them, of which the first one is tried where the second may
stand: a declaration, or the name of a type, and an expression or a statement. Fewer than
thirty rules stand in front of a token of an expression, so at this depth all of its first
tokens are known. -/
structure Rivals (declaring operand : Rule) : Prop where
  inner : declaring ≠ .compilationUnit ∧ operand ≠ .compilationUnit
  begins : (Expr.rule declaring).begins announces 6 = true
  leads : (Expr.rule operand).leads declares 30 = false
  pairs : (Expr.rule operand).pairs (· = .identifier) isOperand 30 = false

/-- Rivals of which the first one is read as soon as a type is. -/
structure EagerRivals (declaring operand : Rule) : Prop extends Rivals declaring operand where
  specifier {here : Cursor} : Reads (.once (.rule declaring)) here none →
    Reads (.once (.rule .typeSpecifier)) here none

theorem rivals_forDeclaration : EagerRivals .forDeclaration .expression where
  inner := by decide
  begins := by decide +kernel
  leads := by decide +kernel
  pairs := by decide +kernel
  specifier := by
    intro here h
    have hspecifiers := reads_none_of_seq_opt (reads_none_body h)
    have hspecifier := reads_none_of_seq_many (reads_none_body hspecifiers)
    cases reads_none_body hspecifier with
    | second h _ => cases h with
      | second h _ => cases h with
        | second h _ => cases h with
          | second _ htype => exact htype

theorem rivals_typeName : EagerRivals .typeName .constantExpression where
  inner := by decide
  begins := by decide +kernel
  leads := by decide +kernel
  pairs := by decide +kernel
  specifier := by
    intro here h
    have hspecifiers := reads_none_of_seq_opt (reads_none_body h)
    cases reads_none_of_seq_many (reads_none_body hspecifiers) with
    | second htype _ => exact htype

theorem rivals_declaration : Rivals .declaration .statement where
  inner := by decide
  begins := by decide +kernel
  leads := by decide +kernel
  pairs := by decide +kernel

namespace Rivals
variable {declaring operand : Rule} {text : List Char} {root : Node}

/-- An expression that does not begin with an identifier and a star is no declaration, not
even in front. -/
theorem reads_none (hrivals : Rivals declaring operand) (h : Matches operand text root)
    (hgap : gapWidth text = 0)
    (hno : ¬ [.identifier, .punctuator .star] <+: Node.tokens [root]) :
    Reads (.once (.rule declaring)) (.start text) none := by
  have hreads := matches_iff.1 h
  have hin := Expr.inner_rule_iff.2 hrivals.inner.2
  obtain ⟨hpasses, -⟩ := hreads.passes_words hin (fun _ _ => rfl) hgap
  refine reads_none_of_begins (fun part hpart => ?_) hrivals.begins
  rcases announces_iff.1 hpart with rfl | ⟨k, rfl, hk⟩
  · refine reads_none_named hpasses hgap rfl fun v hpre hv => ?_
    rcases hv with hv | rfl
    · rw [hreads.first_tokens hin hrivals.pairs hpre (by decide)] at hv
      cases hv
    · exact hno hpre
  · -- A reserved word would be the first word of the expression.
    refine .noToken ?_
    by_contra hread
    obtain ⟨n, hn⟩ := Option.ne_none_iff_exists'.1 hread
    have hlone : Lone (.keyword k) text := lone_of_isWord rfl hn fun _ _ => rfl
    obtain ⟨w, more, hwords⟩ : ∃ w more, Node.words [root] = w :: more := by
      refine List.exists_cons_of_ne_nil fun hnil => ?_
      have hnull := hreads.nullable_of_tokens hin (by rw [Node.tokens, hnil]; rfl)
      cases hnull
    rw [hwords] at hpasses
    have hfirst := hreads.first_token hin hrivals.leads w.token
      (by rw [Node.tokens, hwords]; rfl)
    rw [(hpasses.next_of_lone hgap hlone hn).1, declares, decide_eq_false_iff_not] at hfirst
    exact hfirst hk

end Rivals

theorem EagerRivals.exists_reads {declaring operand : Rule} {text : List Char} {root : Node}
    (hrivals : EagerRivals declaring operand) (h : Matches operand text root)
    (hgap : gapWidth text = 0)
    (hpre : [.identifier, .punctuator .star] <+: Node.tokens [root]) :
    ∃ nodes stop, Reads (.once (.rule declaring)) (.start text) (some (nodes, stop)) := by
  have hin := Expr.inner_rule_iff.2 hrivals.inner.2
  obtain ⟨hpasses, -⟩ := (matches_iff.1 h).passes_words hin (fun _ _ => rfl) hgap
  obtain ⟨nodes, mid, htype⟩ := reads_typeSpecifier hpasses hgap hpre
  obtain ⟨result, hresult⟩ := Parse.exists_reads declaring (.start text)
  cases result with
  | none => cases htype.unique (hrivals.specifier hresult)
  | some result => exact ⟨result.1, result.2, hresult⟩

/-! ## In front of a mark -/

theorem shutBy_semi {words : List (List Char)} {r : Rule} (hlevel : rowLevel 0 words = some 0)
    (hmarked : ¬ Marked (.punctuator .semi) 0 words)
    (hshows : r.shows (.punctuator .semi) = false) (s : List Char) :
    ShutBy .semi words (';' :: s) r where
  clash := by decide
  not_astray _ := not_astray_of_not_shown hlevel hshows
  next hreads hwords hu := by
    rw [hwords] at hmarked
    exact width?_semi_eq_none hmarked (hreads.rowLevel_eq (n := 0) rfl) hu

namespace Rivals
variable {declaring operand : Rule} {mark : Punctuator} {front : List (List Char)}
  {last text final : List Char} {root : Node}

/-- In front of a mark the expression is read, or the declaration that all of it is. -/
theorem reads_choice (hrivals : Rivals declaring operand) (h : Matches operand text root)
    (hframed : Framed front last text final)
    (hshut : ∀ r ∈ [declaring, operand], ShutBy mark (front ++ [last]) final r)
    (hif : [.identifier, .punctuator .star] <+: Node.tokens [root] →
      ∃ whole, Matches declaring text whole) (offset : Nat) :
    ∃ nodes, Reads (.once (.alt (.rule declaring) (.rule operand)))
      (skipGap ⟨offset, text ++ final⟩) (some (nodes, ⟨offset + byteCount text, final⟩)) := by
  have hdeclaring := (hshut declaring (by simp)).not_astray
  by_cases hpre : [.identifier, .punctuator .star] <+: Node.tokens [root]
  · obtain ⟨whole, hwhole⟩ := hif hpre
    obtain ⟨whole', hreads, -⟩ := hframed.reads hrivals.inner.1 hwhole offset hdeclaring
    exact ⟨_, .first hreads⟩
  · have hnone := hframed.reads_none hrivals.inner.1 (hrivals.reads_none h hframed.gap hpre)
      offset hdeclaring
    obtain ⟨root', hreads, -⟩ := hframed.reads hrivals.inner.2 h offset
      (hshut operand (by simp)).not_astray
    exact ⟨_, .second hnone hreads⟩

end Rivals

/-- If a declaration is read from a part of the expression only, the mark does not follow. -/
theorem EagerRivals.choice_not_followed {declaring operand : Rule} {mark : Punctuator}
    {front : List (List Char)} {last text final : List Char} {root : Node}
    (hrivals : EagerRivals declaring operand) (h : Matches operand text root)
    (hframed : Framed front last text final)
    (hshut : ∀ r ∈ [declaring, operand], ShutBy mark (front ++ [last]) final r)
    (hpre : [.identifier, .punctuator .star] <+: Node.tokens [root])
    (hno : ∀ whole, ¬ Matches declaring text whole) (offset : Nat) :
    ∃ nodes mid, Reads (.once (.alt (.rule declaring) (.rule operand)))
        (skipGap ⟨offset, text ++ final⟩) (some (nodes, mid)) ∧
      (Token.punctuator mark).width? (skipGap mid).rest = none := by
  obtain ⟨nodes, stop, hreads⟩ := hrivals.exists_reads h hframed.gap hpre
  obtain ⟨nodes', mid, hreads', hmark⟩ := hframed.not_followed hrivals.inner.1
    (hshut declaring (by simp)) hreads hno offset
  exact ⟨nodes', mid, .first hreads', hmark⟩

/-! ## The head of a loop -/

section
variable {offset : Nat} {s : List Char} {nodes : List Node}

lemma lone_for (s : List Char) : Lone (.keyword .kwFor) ('f' :: 'o' :: 'r' :: ' ' :: s) :=
  lone_of_isWord (n := 3) rfl rfl fun _ _ => rfl

theorem reads_semi (offset : Nat) (s : List Char) :
    Reads (.once (.token (.punctuator .semi))) ⟨offset, ';' :: s⟩
      (some ([.leaf (.punctuator .semi) offset [';']], ⟨offset + 1, s⟩)) :=
  reads_mark rfl fun _ _ h => by cases h

lemma skipGap_semi (offset : Nat) (s : List Char) :
    skipGap ⟨offset, ';' :: s⟩ = ⟨offset, ';' :: s⟩ :=
  skipGap_of_gapWidth (gapWidth_eq_zero_of_mayBegin (t := .punctuator .semi) rfl (by decide) s)

/-- A part and a semicolon. -/
theorem Reads.semi {e : Expr Rule} {here : Cursor} {mid : Nat}
    (h : Reads (.once e) here (some (nodes, ⟨mid, ';' :: s⟩))) :
    Reads (.once (.seq e (Expr.punct .semi))) here
      (some (nodes ++ [.leaf (.punctuator .semi) mid [';']], ⟨mid + 1, s⟩)) :=
  .seq h (by rw [skipGap_semi]; exact reads_semi mid s)

/-- A part behind which, and behind a blank, an optional one is not read. -/
theorem Reads.blank_opt {e f : Expr Rule} {here : Cursor} {mid : Nat}
    (h : Reads (.once e) here (some (nodes, ⟨mid, ' ' :: s⟩)))
    (hgap : gapWidth s = 0) (hnone : Reads (.once f) ⟨mid + 1, s⟩ none) :
    Reads (.once (.seq e (.opt f))) here (some (nodes ++ [], ⟨mid + 1, s⟩)) :=
  .seq h (by rw [skipGap_blank hgap]; exact .noOpt hnone)

/-- No expression is read at a semicolon or at a closing parenthesis. -/
theorem reads_none_expression {p : Punctuator} {r : Rule} {here : Cursor}
    (hp : p ∈ [Punctuator.semi, .rightParen]) (hr : r ∈ [Rule.expression, .forExpression])
    (hlone : Lone (.punctuator p) here.rest) : Reads (.once (.rule r)) here none := by
  have hall : ∀ p ∈ [Punctuator.semi, .rightParen], ∀ r ∈ [Rule.expression, .forExpression],
      (Expr.rule r).begins (isOther (.punctuator p)) 20 = true := by decide +kernel
  exact reads_none_of_lone 20 hlone (hall p hp r hr)

/-- A semicolon alone is a statement. -/
theorem reads_emptyStatement (offset : Nat) (s : List Char) :
    ∃ root, Reads (.once (.rule .statement)) ⟨offset, ';' :: s⟩
      (some ([root], ⟨offset + 1, s⟩)) := by
  have hnone : Reads (.once (.rule .expression)) ⟨offset, ';' :: s⟩ none :=
    reads_none_expression (by decide) (by decide) (lone_semi s)
  have hother : Reads (.once (.alt (.rule .labeledStatement) (.rule .compoundStatement)))
      ⟨offset, ';' :: s⟩ none := reads_none_of_lone 1 (lone_semi s) rfl
  have hstatement := Reads.rule (r := .expressionStatement) (Reads.noOpt hnone).semi
  exact ⟨_, .rule (r := .statement) (.first (.first (.first (.second hother hstatement))))⟩

/-- The part of the loop statements that begins with another word. -/
lemma reads_none_otherLoop (s : List Char) :
    Reads (.once (.alt
      (.seq (.seq (Expr.word .kwWhile) (Expr.parenthesised (.rule .expression))) (.rule .statement))
      (.seq (.seq (.seq (.seq (Expr.word .kwDo) (.rule .statement)) (Expr.word .kwWhile))
        (Expr.parenthesised (.rule .expression))) (Expr.punct .semi))))
      ⟨0, 'f' :: 'o' :: 'r' :: ' ' :: s⟩ none :=
  reads_none_of_lone 1 (lone_for s) rfl

/-- The word that a loop begins with. -/
lemma reads_for (s : List Char) :
    Reads (.once (Expr.word .kwFor)) ⟨0, 'f' :: 'o' :: 'r' :: ' ' :: s⟩
      (some ([.leaf (.keyword .kwFor) 0 ['f', 'o', 'r']], ⟨3, ' ' :: s⟩)) :=
  .token (n := 3) rfl

/-- What may stand in the head of a loop in front of the first semicolon, with nothing behind. -/
theorem reads_loop {mid : Nat}
    (h : Reads (.once (.alt (.rule .forDeclaration) (.rule .expression))) (skipGap ⟨5, s⟩)
      (some (nodes, ⟨mid, [';', ' ', ';', ' ', ')', ' ', ';']⟩))) :
    ∃ root, Reads (.once (.rule .iterationStatement))
      ⟨0, 'f' :: 'o' :: 'r' :: ' ' :: '(' :: s⟩ (some ([root], ⟨mid + 7, []⟩)) := by
  have hsemi : Reads (.once (.rule .forExpression)) ⟨mid + 2, [';', ' ', ')', ' ', ';']⟩ none :=
    reads_none_expression (by decide) (by decide) (lone_semi _)
  have hparen : Reads (.once (.rule .forExpression)) ⟨mid + 4, [')', ' ', ';']⟩ none :=
    reads_none_expression (by decide) (by decide) (lone_rightParen _)
  have hcondition := Reads.rule (r := .forCondition)
    (((Reads.opt h).semi.blank_opt rfl hsemi).semi.blank_opt rfl hparen)
  obtain ⟨statement, hstatement⟩ := reads_emptyStatement (mid + 6) []
  have hhead := Reads.seq (reads_for ('(' :: s))
    (by rw [skipGap_space, skipGap_leftParen]; exact hcondition.parenthesised)
  have hloop := Reads.seq hhead (by rw [skipGap_space, skipGap_semi]; exact hstatement)
  exact ⟨_, .rule (.second (reads_none_otherLoop _) hloop)⟩

/-- A loop is not read if no semicolon follows what is read in its head. -/
theorem reads_none_loop {mid : Cursor}
    (h : Reads (.once (.alt (.rule .forDeclaration) (.rule .expression))) (skipGap ⟨5, s⟩)
      (some (nodes, mid)))
    (hmark : (Token.punctuator .semi).width? (skipGap mid).rest = none) :
    Reads (.once (.rule .iterationStatement)) ⟨0, 'f' :: 'o' :: 'r' :: ' ' :: '(' :: s⟩ none := by
  have hcondition : Reads (.once (.rule .forCondition)) (skipGap ⟨5, s⟩) none :=
    .noRule (.noFirst (.noFirst (.noFirst (.noSecond (.opt h) (.noToken hmark)))))
  have hhead : Reads (.once (Expr.parenthesised (.rule .forCondition))) ⟨4, '(' :: s⟩ none :=
    .noFirst (.noSecond (reads_leftParen 4 s) hcondition)
  refine .noRule (.second (reads_none_otherLoop _) (.noFirst (.noSecond (reads_for _) ?_)))
  rw [skipGap_space, skipGap_leftParen]
  exact hhead

/-- An expression stands in the head of a loop unless it begins with an identifier and a star
and is no declaration as a whole: then the front of it is read as one, and no semicolon
follows. -/
theorem loop_head_accepts_iff {e : List Char} {inner : Node} (he : Matches .expression e inner)
    (he' : Trimmed e inner) :
    (∃ root, Matches .iterationStatement ("for (".toList ++ e ++ "; ; ) ;".toList) root) ↔
      ([.identifier, .punctuator .star] <+: Node.tokens [inner] →
        ∃ whole, Matches .forDeclaration e whole) := by
  have htext : "for (".toList ++ e ++ "; ; ) ;".toList =
      'f' :: 'o' :: 'r' :: ' ' :: '(' :: (e ++ [';', ' ', ';', ' ', ')', ' ', ';']) := by simp
  rw [htext]
  obtain ⟨front, last, hwords, hlevel, hframed⟩ := he.framed_mark (by decide) he' ';'
    " ; ) ;".toList (by decide) (by decide)
  have hshows : ∀ r ∈ [Rule.forDeclaration, .expression],
      r.shows (.punctuator .semi) = false := by decide +kernel
  have hmarked : ¬ Marked (.punctuator .semi) 0 (front ++ [last]) := by
    rw [← hwords]
    exact (matches_iff.1 he).not_marked (by decide) rfl
      (Expr.shows_rule_eq_false (hshows .expression (by decide)) 0)
  have hshut := fun r hr => shutBy_semi hlevel hmarked (hshows r hr) " ; ) ;".toList
  constructor
  · rintro ⟨root, hroot⟩ hpre
    by_contra hno
    obtain ⟨nodes, mid, hreads, hmark⟩ := rivals_forDeclaration.choice_not_followed he hframed
      hshut hpre (fun whole hwhole => hno ⟨whole, hwhole⟩) 5
    cases (matches_iff.1 hroot).unique (reads_none_loop hreads hmark)
  · intro hif
    obtain ⟨nodes, hreads⟩ := rivals_forDeclaration.reads_choice he hframed hshut hif 5
    obtain ⟨root, hroot⟩ := reads_loop hreads
    exact ⟨root, hroot.matches_of_end rfl⟩

end

theorem loop_head_accepts_sum : ∃ inner, Matches .expression "a + 1".toList inner ∧
    Trimmed "a + 1".toList inner ∧
    ∃ root, Matches .iterationStatement
      ("for (".toList ++ "a + 1".toList ++ "; ; ) ;".toList) root := by
  obtain ⟨inner, he, he'⟩ := exists_trimmed .expression "a + 1".toList
    (by decide +kernel) (by decide +kernel)
  refine ⟨inner, he, he', (loop_head_accepts_iff he he').2 fun hpre => ?_⟩
  have htokens : Node.tokens [inner] = [.identifier, .punctuator .plus, .constant] :=
    he.eq_of_map (f := fun root => Node.tokens [root]) (by decide +kernel)
  rw [htokens] at hpre
  exact absurd hpre (by decide)

/-- The front of a product is read as a declaration of nothing, with a pointer that is left. -/
theorem product_loop_head_refused : ∃ inner, Matches .expression "a * 1".toList inner ∧
    Trimmed "a * 1".toList inner ∧
    ∀ root, ¬ Matches .iterationStatement
      ("for (".toList ++ "a * 1".toList ++ "; ; ) ;".toList) root := by
  obtain ⟨inner, he, he'⟩ := exists_trimmed .expression "a * 1".toList
    (by decide +kernel) (by decide +kernel)
  exact ⟨inner, he, he', not_matches_of_isNone (by decide +kernel)⟩

/-! ## The argument of an alignment -/

section
variable {s : List Char} {nodes : List Node}

lemma reads_alignas (s : List Char) :
    Reads (.once (Expr.word .kwAlignas)) ⟨0, "_Alignas".toList ++ '(' :: s⟩
      (some ([.leaf (.keyword .kwAlignas) 0 "_Alignas".toList], ⟨8, '(' :: s⟩)) :=
  .token (n := 8) rfl

/-- What may stand in the parentheses of an alignment, with nothing behind. -/
theorem reads_alignment {mid : Nat}
    (h : Reads (.once (.alt (.rule .typeName) (.rule .constantExpression))) (skipGap ⟨9, s⟩)
      (some (nodes, ⟨mid, [')']⟩))) :
    ∃ root, Reads (.once (.rule .alignmentSpecifier)) ⟨0, "_Alignas".toList ++ '(' :: s⟩
      (some ([root], ⟨mid + 1, []⟩)) :=
  ⟨_, .rule (.seq (reads_alignas s) (by rw [skipGap_leftParen]; exact h.parenthesised))⟩

/-- An alignment is not read if no parenthesis follows what is read in it. -/
theorem reads_none_alignment {mid : Cursor}
    (h : Reads (.once (.alt (.rule .typeName) (.rule .constantExpression))) (skipGap ⟨9, s⟩)
      (some (nodes, mid)))
    (hmark : (Token.punctuator .rightParen).width? (skipGap mid).rest = none) :
    Reads (.once (.rule .alignmentSpecifier)) ⟨0, "_Alignas".toList ++ '(' :: s⟩ none := by
  refine .noRule (.noSecond (reads_alignas s) ?_)
  rw [skipGap_leftParen]
  exact .noSecond (.seq (reads_leftParen 8 s) h) (.noToken hmark)

end

/-- A constant expression stands in an alignment unless it begins with an identifier and a star
and is no name of a type as a whole: then the front of it is read as one, and no parenthesis
follows. -/
theorem alignment_accepts_iff {e : List Char} {inner : Node}
    (he : Matches .constantExpression e inner) (he' : Trimmed e inner) :
    (∃ root, Matches .alignmentSpecifier ("_Alignas(".toList ++ e ++ ")".toList) root) ↔
      ([.identifier, .punctuator .star] <+: Node.tokens [inner] →
        ∃ whole, Matches .typeName e whole) := by
  have htext : "_Alignas(".toList ++ e ++ ")".toList =
      "_Alignas".toList ++ '(' :: (e ++ [')']) := by simp
  rw [htext]
  obtain ⟨front, last, -, hlevel, hframed⟩ := he.framed_mark (by decide) he' ')' []
    (by decide) (by decide)
  have hshut : ∀ r ∈ [Rule.typeName, .constantExpression],
      ShutBy .rightParen (front ++ [last]) [')'] r := fun r _ => shutBy_rightParen hlevel [] r
  constructor
  · rintro ⟨root, hroot⟩ hpre
    by_contra hno
    obtain ⟨nodes, mid, hreads, hmark⟩ := rivals_typeName.choice_not_followed he hframed hshut
      hpre (fun whole hwhole => hno ⟨whole, hwhole⟩) 9
    cases (matches_iff.1 hroot).unique (reads_none_alignment hreads hmark)
  · intro hif
    obtain ⟨nodes, hreads⟩ := rivals_typeName.reads_choice he hframed hshut hif 9
    obtain ⟨root, hroot⟩ := reads_alignment hreads
    exact ⟨root, hroot.matches_of_end rfl⟩

theorem alignment_accepts_sum : ∃ inner, Matches .constantExpression "a + 1".toList inner ∧
    Trimmed "a + 1".toList inner ∧
    ∃ root, Matches .alignmentSpecifier
      ("_Alignas(".toList ++ "a + 1".toList ++ ")".toList) root := by
  obtain ⟨inner, he, he'⟩ := exists_trimmed .constantExpression "a + 1".toList
    (by decide +kernel) (by decide +kernel)
  refine ⟨inner, he, he', (alignment_accepts_iff he he').2 fun hpre => ?_⟩
  have htokens : Node.tokens [inner] = [.identifier, .punctuator .plus, .constant] :=
    he.eq_of_map (f := fun root => Node.tokens [root]) (by decide +kernel)
  rw [htokens] at hpre
  exact absurd hpre (by decide)

/-- The front of a product is read as a pointer to a type that its first factor names. -/
theorem product_alignment_refused : ∃ inner, Matches .constantExpression "a * b".toList inner ∧
    Trimmed "a * b".toList inner ∧
    ∀ root, ¬ Matches .alignmentSpecifier
      ("_Alignas(".toList ++ "a * b".toList ++ ")".toList) root := by
  obtain ⟨inner, he, he'⟩ := exists_trimmed .constantExpression "a * b".toList
    (by decide +kernel) (by decide +kernel)
  exact ⟨inner, he, he', not_matches_of_isNone (by decide +kernel)⟩

end CTree.Parse
