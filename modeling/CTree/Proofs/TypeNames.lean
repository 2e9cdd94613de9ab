import CTree.Proofs.LoneToken
import CTree.Proofs.NodePlaces

/-!
# Names of types

An identifier is the name of a type where another identifier or a star follows it. What was
seen there when the name was read is the next word of the tree: no literal that begins like an
identifier stands behind one, and a star is read for nothing else.
-/
namespace CTree.Parse
open CTree.Grammar CTree.Lexical CTree.Text

/-- What is looked for behind the name of a type. -/
def namedAhead : Expr Rule := .ahead (.token .identifier ||| Expr.punct .star)

/-- The name of a type is read only where an identifier or a star is ahead. -/
theorem ties_typedefName : ∀ r ∈ Rule.all,
    r.body.ties (.rule .typedefName) namedAhead = true := by
  decide +kernel

theorem exists_width?_of_namedAhead {here stop : Cursor} {nodes : List Node}
    (h : Reads (.once namedAhead) here (some (nodes, stop))) :
    ∃ k, Token.identifier.width? here.rest = some k ∨
      (Token.punctuator .star).width? here.rest = some k := by
  cases h with
  | ahead h =>
    cases h with
    | first h => cases h with | token hk => exact ⟨_, .inl hk⟩
    | second _ h => cases h with | token hk => exact ⟨_, .inr hk⟩

theorem Node.ReadAt.eq_typedefName {n : Node} {place mid : Cursor} (h : n.ReadAt place mid)
    (hname : n.symbol = .rule .typedefName) : ∃ text,
      n = .branch .typedefName place.offset (place.offset + byteCount text)
        [.leaf .identifier place.offset text] := by
  cases n with
  | leaf t start text => cases hname
  | branch r start stop children =>
    obtain rfl : r = .typedefName := Symbol.rule.inj hname
    cases h.reads with
    | rule hbody =>
      cases hbody with
      | @token _ _ k _ => exact ⟨place.rest.take k, by rw [Cursor.advance_offset]⟩

/-- Behind an identifier, where an identifier or a star is ahead, one of them is the next word. -/
theorem Passes.next_of_ahead {here stop : Cursor} {words : List Leaf} {k : Nat}
    (h : Passes here words stop) (hend : (skipGap stop).rest = [])
    (hahead : Token.identifier.width? (skipGap here).rest = some k ∨
      (Token.punctuator .star).width? (skipGap here).rest = some k) :
    ∃ next rest, words = next :: rest ∧
      (Token.identifier.clash next.token = false →
        next.token = .identifier ∨ next.token = .punctuator .star) := by
  cases words with
  | nil =>
    rw [← h.nothing, hend] at hahead
    rcases hahead with hk | hk <;> cases hk
  | cons next rest =>
    refine ⟨next, rest, rfl, fun hclash => ?_⟩
    obtain ⟨l, hl, -⟩ := h.next
    rcases hahead with hk | hk
    · have hmem := mem_of_width?_identifier (h.token_ne next List.mem_cons_self) hk hl
      have hall : ∀ t ∈ [Token.identifier, .constant, .stringLiteral],
          Token.identifier.clash t = false → t = .identifier := by decide
      exact .inl (hall _ hmem hclash)
    · exact .inr ((lone_star hk).eq hl)

/-- Behind the name of a type the next word is an identifier or a star. -/
theorem Node.ReadAt.next_of_typedefName {source : List Char} {root n : Node} {place mid : Cursor}
    {before after : List Leaf} (hplace : n.ReadAt place mid) (h : parse source = .ok root)
    (hreach : (Cursor.start source).Reaches place) (hn : n ∈ root.preorder)
    (hname : n.symbol = .rule .typedefName)
    (hwords : Node.words [root] = before ++ Node.words [n] ++ after) :
    ∃ next rest, after = next :: rest ∧
      (next.token = .identifier ∨ next.token = .punctuator .star) := by
  have hin : n.symbol.expr.inner = true := by rw [hname]; rfl
  have hties : ∀ r ∈ Rule.all, r.body.ties n.symbol namedAhead = true := by
    rw [hname]
    exact ties_typedefName
  obtain ⟨nodes, last, hahead⟩ := hplace.tied h hreach hties hn hin (by rw [hname]; nofun)
  obtain ⟨k, hk⟩ := exists_width?_of_namedAhead hahead
  obtain ⟨mid', stop, hmid, hpasses, hstop⟩ := hplace.passes_behind h hreach hin hwords
  rw [← hmid] at hk
  obtain ⟨next, rest, rfl, hor⟩ := hpasses.next_of_ahead hstop hk
  refine ⟨next, rest, rfl, hor ?_⟩
  -- The name is an identifier, which no literal stands behind.
  obtain ⟨text, rfl⟩ := hplace.eq_typedefName hname
  obtain ⟨-, -, -, hchain⟩ := passes_of_parse h
  rw [hwords, Node.words_branch (List.cons_ne_nil _ _), Node.words_leaf (t := .identifier) nofun,
    List.append_assoc, List.map_append] at hchain
  exact hchain.right_of_append.rel

/-- The name of a type is an identifier that spans it, and the next word is an identifier or a
star. -/
theorem typedefName_in_context {source : String} {root n : Node}
    (h : Source.parse source = .ok root) (hn : n ∈ root.preorder)
    (hname : n.symbol = .rule .typedefName) :
    ∃ name : Leaf, name.token = .identifier ∧ n.children = [name.node] ∧
      n.start = name.start ∧ n.stop = name.start + byteCount name.text ∧
      (∃ next, root.NextWord name.node next) ∧
      ∀ next, root.NextWord name.node next →
        next.token = .identifier ∨ next.token = .punctuator .star := by
  have hparse := source_parse_eq_ok_iff.1 h
  have hin : n.symbol.expr.inner = true := by rw [hname]; rfl
  obtain ⟨place, mid, hreach, hplace⟩ := exists_readAt_of_parse hparse hn hin
  have hnext : ∀ before after, Node.words [root] = before ++ Node.words [n] ++ after →
      ∃ next rest, after = next :: rest ∧
        (next.token = .identifier ∨ next.token = .punctuator .star) :=
    fun _ _ => hplace.next_of_typedefName hparse hreach hn hname
  obtain ⟨text, rfl⟩ := hplace.eq_typedefName hname
  have hsame : Node.words [.branch .typedefName place.offset (place.offset + byteCount text)
      [Leaf.node ⟨.identifier, place.offset, text⟩]] =
      Node.words [Leaf.node ⟨.identifier, place.offset, text⟩] :=
    Node.words_branch (List.cons_ne_nil _ _)
  refine ⟨⟨.identifier, place.offset, text⟩, rfl, rfl, rfl, rfl, ?_, ?_⟩
  · rw [← Node.preorderAll_singleton] at hn
    obtain ⟨before, after, hsplit⟩ := Node.infix_words hn
    obtain ⟨next, rest, rfl, -⟩ := hnext before after hsplit.symm
    exact ⟨next, before, rest, by rw [← hsame, ← hsplit]; rfl⟩
  · rintro next ⟨before, rest, hsplit⟩
    rw [← hsame] at hsplit
    obtain ⟨next', rest', hcons, hor⟩ := hnext before (next :: rest) hsplit
    obtain ⟨rfl, -⟩ := List.cons.inj hcons
    exact hor

theorem typedefName_in_context_pointer : ∃ root n, Source.parse "L f(T*L);" = .ok root ∧
    n ∈ root.preorder ∧ n.symbol = .rule .typedefName ∧
    ∃ name : Leaf, name.token = .identifier ∧ n.children = [name.node] ∧
      n.start = name.start ∧ n.stop = name.start + byteCount name.text ∧
      (∃ next, root.NextWord name.node next) ∧
      ∀ next, root.NextWord name.node next →
        next.token = .identifier ∨ next.token = .punctuator .star := by
  obtain ⟨root, n, hparse, hn, hname, -⟩ := exists_nextWord "L f(T*L);"
    (fun n => n.symbol = .rule .typedefName)
    [⟨.identifier, 0, ['L']⟩, ⟨.identifier, 2, ['f']⟩, ⟨.punctuator .leftParen, 3, ['(']⟩]
    [⟨.identifier, 6, ['L']⟩, ⟨.punctuator .rightParen, 7, [')']⟩,
     ⟨.punctuator .semi, 8, [';']⟩]
    ⟨.punctuator .star, 5, ['*']⟩ (by decide +kernel)
  exact ⟨root, n, hparse, hn, hname, typedefName_in_context hparse hn hname⟩

end CTree.Parse
