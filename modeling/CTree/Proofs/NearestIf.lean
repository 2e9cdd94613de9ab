import CTree.Proofs.NodePlaces

/-!
# Which statement an else belongs to

Behind the statement of an `if` an `else` with a statement is read if there is one. What is
read of the text does not depend on who asks, so an `else` that one `if` did not take, for no
statement can be read behind it, is taken by no other.
-/
namespace CTree.Parse
open CTree.Grammar CTree.Lexical CTree.Text

/-- A selection that begins with an `if` and has no `else` among its parts. -/
structure Node.Elseless (node : Node) : Prop where
  selection : node.symbol = .rule .selectionStatement
  begins : ∃ first ∈ node.children.head?, first.symbol = .token (.keyword .kwIf)
  no_else : ∀ part ∈ node.children, part.symbol ≠ .token (.keyword .kwElse)

instance (node : Node) : Decidable node.Elseless :=
  decidable_of_iff (node.symbol = .rule .selectionStatement ∧
    (∃ first ∈ node.children.head?, first.symbol = .token (.keyword .kwIf)) ∧
    ∀ part ∈ node.children, part.symbol ≠ .token (.keyword .kwElse))
    ⟨fun ⟨hselection, hbegins, hno⟩ => ⟨hselection, hbegins, hno⟩,
      fun ⟨hselection, hbegins, hno⟩ => ⟨hselection, hbegins, hno⟩⟩

/-- An `else` is read only in front of a statement. -/
theorem ties_else : ∀ r ∈ Rule.all,
    r.body.ties (.token (.keyword .kwElse)) (.rule .statement) = true := by
  decide +kernel

/-- Behind an `if` without an `else`, none could be read with its statement. -/
theorem Node.Elseless.reads_none {n : Node} {place mid : Cursor} (h : n.Elseless)
    (hplace : n.ReadAt place mid) :
    Reads (.once (Expr.word .kwElse ++ .rule .statement)) mid none ∧ skipGap mid = mid := by
  obtain ⟨hselection, hbegins, hno⟩ := h
  cases n with
  | leaf t start text => cases hselection
  | branch r start stop children =>
    obtain rfl : r = .selectionStatement := Symbol.rule.inj hselection
    cases hplace.reads with
    | rule hbody =>
      cases hbody with
      | first hif =>
        cases hif with
        | @seq _ _ _ _ behind _ _ _ helse =>
          cases helse with
          | noOpt hnone => exact ⟨hnone, skipGap_of_gapWidth (gapWidth_skipGap behind)⟩
          | opt htaken =>
            cases htaken with
            | seq hword _ =>
              cases hword with
              | token _ => exact absurd rfl (hno _ (List.mem_append_right _ List.mem_cons_self))
      | second _ hswitch =>
        cases hswitch with
        | seq hhead _ =>
          cases hhead with
          | seq hword _ =>
            cases hword with
            | token _ =>
              obtain ⟨first, hfirst, hsymbol⟩ := hbegins
              obtain rfl := Option.some.inj hfirst
              cases hsymbol

/-- Next behind an `if` without an `else` there is no `else`. -/
theorem else_of_nearest_if {source : String} {root n : Node} {next : Leaf}
    (h : Source.parse source = .ok root) (hn : n ∈ root.preorder) (hif : n.Elseless)
    (hnext : root.NextWord n next) : next.token ≠ .keyword .kwElse := by
  intro helse
  obtain ⟨t, start, text⟩ := next
  obtain rfl : t = .keyword .kwElse := helse
  have hparse := source_parse_eq_ok_iff.1 h
  have hin : n.symbol.expr.inner = true := by rw [hif.selection]; rfl
  obtain ⟨place, mid, hreach, hplace⟩ := exists_readAt_of_parse hparse hn hin
  obtain ⟨hnone, hskip⟩ := hif.reads_none hplace
  obtain ⟨before, after, hwords⟩ := hnext
  obtain ⟨mid', stop, hmid, hpasses, -⟩ := hplace.passes_behind hparse hreach hin hwords
  obtain ⟨k, hk, hstart, -, -⟩ := hpasses.next
  rw [hmid, hskip] at hk hstart
  -- The `else` is read somewhere with a statement behind it, and so it is here.
  have hleaf : .leaf (.keyword .kwElse) start text ∈ root.preorder := by
    rw [← Node.preorderAll_singleton]
    exact Node.mem_preorder_of_word (w := ⟨.keyword .kwElse, start, text⟩) (by rw [hwords]; simp)
  obtain ⟨other, behind, hreach', hother⟩ := exists_readAt_of_parse hparse hleaf rfl
  obtain ⟨statement, last, hstatement⟩ := hother.tied hparse hreach' ties_else hleaf rfl nofun
  obtain rfl : other = mid := hreach'.eq_of_offset (hreach.trans hplace.reads.reaches)
    (hother.start_eq.symm.trans hstart)
  cases hnone.unique (.seq hother.reads hstatement)

theorem else_of_nearest_if_block : ∃ root n,
    Source.parse "f()\x7bif(a)\x7bif(b);\x7delse;\x7d" = .ok root ∧ n ∈ root.preorder ∧
    n.Elseless ∧ root.NextWord n ⟨.punctuator .rightBrace, 16, ['\x7d']⟩ ∧
    Token.punctuator .rightBrace ≠ .keyword .kwElse := by
  obtain ⟨root, n, hparse, hn, hif, hnext⟩ := exists_nextWord
    "f()\x7bif(a)\x7bif(b);\x7delse;\x7d" Node.Elseless
    [⟨.identifier, 0, ['f']⟩, ⟨.punctuator .leftParen, 1, ['(']⟩,
     ⟨.punctuator .rightParen, 2, [')']⟩, ⟨.punctuator .leftBrace, 3, ['\x7b']⟩,
     ⟨.keyword .kwIf, 4, ['i', 'f']⟩, ⟨.punctuator .leftParen, 6, ['(']⟩,
     ⟨.identifier, 7, ['a']⟩, ⟨.punctuator .rightParen, 8, [')']⟩,
     ⟨.punctuator .leftBrace, 9, ['\x7b']⟩]
    [⟨.keyword .kwElse, 17, "else".toList⟩, ⟨.punctuator .semi, 21, [';']⟩,
     ⟨.punctuator .rightBrace, 22, ['\x7d']⟩]
    ⟨.punctuator .rightBrace, 16, ['\x7d']⟩ (by decide +kernel)
  exact ⟨root, n, hparse, hn, hif, hnext, else_of_nearest_if hparse hn hif hnext⟩

end CTree.Parse
