import CTree.Proofs.RuleLanguage

/-!
# The places of the nodes

Every node of a tree was read by its own symbol at a place of the source, and the words of the
tree that come behind those of the node are read from where the node ends. So what was looked
for behind the node, and found or not, can be told from the next word. A symbol that the rules
ask for only in front of a certain part is always followed by this part.
-/
namespace CTree.Text.Cursor

/-- A place of a text is known by its offset. -/
theorem Reaches.eq_of_offset {here a b : Cursor} (ha : here.Reaches a) (hb : here.Reaches b)
    (h : a.offset = b.offset) : a = b := by
  obtain ⟨s, hs, hoffset⟩ := ha
  obtain ⟨t, ht, hoffset'⟩ := hb
  obtain ⟨-, hrest⟩ := append_inj_of_byteCount (hs.symm.trans ht) (by omega)
  obtain ⟨o, r⟩ := a
  obtain ⟨o', r'⟩ := b
  obtain rfl : o = o' := h
  obtain rfl : r = r' := hrest
  rfl

end CTree.Text.Cursor

namespace CTree.Grammar
open CTree.Lexical

/-- The expression that asks for the symbol. -/
def Symbol.expr : Symbol → Expr Rule
  | rule r => .rule r
  | token t => .token t

/-- Whether the symbol is asked for only in front of the given part. -/
def Expr.ties (s : Symbol) : (e part : Expr Rule) → Bool
  | nothing, _ => true
  | token t, _ => Symbol.token t ≠ s
  | rule r, _ => Symbol.rule r ≠ s
  | seq e f, part => (e = s.expr ∧ f = part ∨ e.ties s part) && f.ties s part
  | alt e f, part => e.ties s part && f.ties s part
  | opt e, part | many e, part | ahead e, part => e.ties s part

end CTree.Grammar

namespace CTree.Parse
open CTree.Grammar CTree.Lexical CTree.Text

/-! ## Nodes inside of a tree -/

namespace Node

mutual

theorem infix_preorder {n : Node} : (m : Node) → n ∈ m.preorder → n.preorder <:+: m.preorder
  | leaf t start text, h => by
    obtain rfl := List.mem_singleton.1 h
    exact List.infix_rfl
  | branch r start stop children, h => by
    rcases List.mem_cons.1 h with rfl | h
    · exact List.infix_rfl
    · exact (infix_preorder_all children h).trans (List.infix_cons List.infix_rfl)

theorem infix_preorder_all {n : Node} :
    (ns : List Node) → n ∈ preorderAll ns → n.preorder <:+: preorderAll ns
  | [], h => nomatch h
  | m :: ns, h => by
    rcases List.mem_append.1 h with h | h
    · exact (infix_preorder m h).trans (List.prefix_append _ _).isInfix
    · exact (infix_preorder_all ns h).trans (List.suffix_append _ _).isInfix

end

/-- The words of a node inside of a tree stand side by side among the words of the tree. -/
theorem infix_words {n : Node} {nodes : List Node} (h : n ∈ preorderAll nodes) :
    words [n] <:+: words nodes := by
  have hall := infix_preorder_all nodes h
  rw [← preorderAll_singleton] at hall
  exact (hall.filter _).filterMap _

mutual

theorem exists_parent {n : Node} :
    (m : Node) → n ∈ m.preorder → n = m ∨ ∃ p ∈ m.preorder, n ∈ p.children
  | leaf t start text, h => .inl (List.mem_singleton.1 h)
  | branch r start stop children, h => by
    rcases List.mem_cons.1 h with rfl | h
    · exact .inl rfl
    · rcases exists_parent_all children h with hchild | ⟨p, hp, hchild⟩
      · exact .inr ⟨_, List.mem_cons_self, hchild⟩
      · exact .inr ⟨p, List.mem_cons_of_mem _ hp, hchild⟩

/-- A node inside of a tree is the root or a child of a node inside of the tree. -/
theorem exists_parent_all {n : Node} : (ns : List Node) → n ∈ preorderAll ns →
    n ∈ ns ∨ ∃ p ∈ preorderAll ns, n ∈ p.children
  | [], h => nomatch h
  | m :: ns, h => by
    rcases List.mem_append.1 h with h | h
    · rcases exists_parent m h with rfl | ⟨p, hp, hchild⟩
      · exact .inl List.mem_cons_self
      · exact .inr ⟨p, List.mem_append_left _ hp, hchild⟩
    · rcases exists_parent_all ns h with hmem | ⟨p, hp, hchild⟩
      · exact .inl (List.mem_cons_of_mem _ hmem)
      · exact .inr ⟨p, List.mem_append_right _ hp, hchild⟩

end

theorem mem_preorder_of_word {w : Leaf} {nodes : List Node} (h : w ∈ words nodes) :
    w.node ∈ preorderAll nodes := by
  obtain ⟨n, hn, hw⟩ := List.mem_filterMap.1 h
  have hnode : n = w.node := by
    cases n with
    | leaf t start text => cases t <;> cases hw <;> rfl
    | branch r start stop children => cases hw
  rw [← hnode]
  exact (List.mem_filter.1 hn).1

end Node

/-! ## Where a node was read -/

/-- The node was read by its symbol from one place to another. -/
structure Node.ReadAt (node : Node) (place mid : Cursor) : Prop where
  reads : Reads (.once node.symbol.expr) place (some ([node], mid))
  ready : gapWidth place.rest = 0

section
variable {goal : Goal} {here stop place mid : Cursor} {nodes : List Node} {n : Node}

theorem Reads.exists_readAt (h : Reads goal here (some (nodes, stop))) (hready : goal.Ready here) :
    ∀ n ∈ Node.preorderAll nodes, ∃ place mid, here.Reaches place ∧ n.ReadAt place mid := by
  induction h using Reads.match_induction with
  | nothing | noOpt | noMany | ahead | enough => nofun
  | token t here k hk =>
    intro n hn
    rw [Node.preorderAll_singleton] at hn
    obtain rfl := List.mem_singleton.1 hn
    exact ⟨here, _, .refl here, .token hk, hready⟩
  | rule r here nodes stop h ih =>
    intro n hn
    rw [Node.preorderAll_singleton] at hn
    rcases List.mem_cons.1 hn with rfl | hn
    · exact ⟨here, stop, .refl here, .rule h, hready⟩
    · exact ih hready n hn
  | first _ _ _ _ _ _ ih | second _ _ _ _ _ _ _ ih | opt _ _ _ _ _ ih => exact ih hready
  | seq e f here nodes mid more stop h _ ih ih' =>
    intro n hn
    rw [Node.preorderAll_append, List.mem_append] at hn
    rcases hn with hn | hn
    · exact ih hready n hn
    · obtain ⟨place, last, hreach, hplace⟩ := ih' (gapWidth_skipGap mid) n hn
      exact ⟨place, last, h.reaches.trans ((reaches_skipGap mid).trans hreach), hplace⟩
  | many e here nodes mid more stop h _ ih ih' =>
    intro n hn
    rw [Node.preorderAll_append, List.mem_append] at hn
    rcases hn with hn | hn
    · exact ih hready n hn
    · obtain ⟨place, last, hreach, hplace⟩ := ih' trivial n hn
      exact ⟨place, last, h.reaches.trans hreach, hplace⟩
  | again e here nodes mid more stop h _ ih ih' =>
    intro n hn
    rw [Node.preorderAll_append, List.mem_append] at hn
    rcases hn with hn | hn
    · obtain ⟨place, last, hreach, hplace⟩ := ih (gapWidth_skipGap here) n hn
      exact ⟨place, last, (reaches_skipGap here).trans hreach, hplace⟩
    · obtain ⟨place, last, hreach, hplace⟩ := ih' trivial n hn
      exact ⟨place, last, (reaches_skipGap here).trans (h.reaches.trans hreach), hplace⟩

theorem Reads.eq_singleton {s : Symbol} (h : Reads (.once s.expr) here (some (nodes, stop))) :
    ∃ n, nodes = [n] := by
  cases s with
  | rule r => cases h with | rule h => exact ⟨_, rfl⟩
  | token t => cases h with | token h => exact ⟨_, rfl⟩

/-- What is asked for only in front of a part is read in front of the part. -/
theorem Reads.tied {s : Symbol} {part : Expr Rule} (h : Reads goal here (some (nodes, stop)))
    (hready : goal.Ready here) (hties : goal.expr.ties s part = true) (hs : n.symbol = s)
    (hn : n ∈ nodes) :
    ∃ place mid, here.Reaches place ∧ n.ReadAt place mid ∧
      ∃ more last, Reads (.once part) (skipGap mid) (some (more, last)) := by
  induction h using Reads.match_induction with
  | nothing | noOpt | noMany | ahead | enough => cases hn
  | token t | rule r =>
    obtain rfl := List.mem_singleton.1 hn
    exact absurd hs (of_decide_eq_true hties)
  | first _ _ _ _ _ _ ih => exact ih hready (Bool.and_eq_true_iff.1 hties).1 hn
  | second _ _ _ _ _ _ _ ih => exact ih hready (Bool.and_eq_true_iff.1 hties).2 hn
  | opt _ _ _ _ _ ih => exact ih hready hties hn
  | seq e f here nodes mid more stop h h' ih ih' =>
    obtain ⟨hfirst, hsecond⟩ := Bool.and_eq_true_iff.1 hties
    rcases List.mem_append.1 hn with hn | hn
    · rcases of_decide_eq_true hfirst with ⟨rfl, rfl⟩ | hfirst
      · obtain ⟨m, rfl⟩ := h.eq_singleton
        obtain rfl := List.mem_singleton.1 hn
        exact ⟨here, mid, .refl here, ⟨by rwa [hs], hready⟩, more, stop, h'⟩
      · exact ih hready hfirst hn
    · obtain ⟨place, last, hreach, hplace⟩ := ih' (gapWidth_skipGap mid) hsecond hn
      exact ⟨place, last, h.reaches.trans ((reaches_skipGap mid).trans hreach), hplace⟩
  | many e here nodes mid more stop h _ ih ih' =>
    rcases List.mem_append.1 hn with hn | hn
    · exact ih hready hties hn
    · obtain ⟨place, last, hreach, hplace⟩ := ih' trivial hties hn
      exact ⟨place, last, h.reaches.trans hreach, hplace⟩
  | again e here nodes mid more stop h _ ih ih' =>
    rcases List.mem_append.1 hn with hn | hn
    · obtain ⟨place, last, hreach, hplace⟩ := ih (gapWidth_skipGap here) hties hn
      exact ⟨place, last, (reaches_skipGap here).trans hreach, hplace⟩
    · obtain ⟨place, last, hreach, hplace⟩ := ih' trivial hties hn
      exact ⟨place, last, (reaches_skipGap here).trans (h.reaches.trans hreach), hplace⟩

/-- The same holds at any depth, as the symbol is tied in all rules. -/
theorem Reads.tied_inside {s : Symbol} {part : Expr Rule}
    (h : Reads goal here (some (nodes, stop))) (hready : goal.Ready here)
    (hties : goal.expr.ties s part = true) (hall : ∀ r ∈ Rule.all, r.body.ties s part = true)
    (hs : n.symbol = s) (hn : n ∈ Node.preorderAll nodes) :
    ∃ place mid, here.Reaches place ∧ n.ReadAt place mid ∧
      ∃ more last, Reads (.once part) (skipGap mid) (some (more, last)) := by
  rcases Node.exists_parent_all nodes hn with hn | ⟨p, hp, hn⟩
  · exact h.tied hready hties hs hn
  · obtain ⟨place, mid, hreach, hplace⟩ := h.exists_readAt hready p hp
    cases p with
    | leaf t start text => cases hn
    | branch r start stop children =>
      obtain ⟨hreads, hready'⟩ := hplace
      cases hreads with
      | rule hbody =>
        obtain ⟨place', mid', hreach', htied⟩ := hbody.tied hready' (hall r r.mem_all) hs hn
        exact ⟨place', mid', hreach.trans hreach', htied⟩

end

/-! ## Nodes of a source -/

section
variable {source : List Char} {root n : Node} {place mid : Cursor}

/-- The nodes of a source are those of its translation unit, but for the root and the mark at
the end. -/
theorem mem_preorder_inside {inside : List Node} {offset place : Nat}
    (hn : n ∈ Node.preorder
      (.branch .compilationUnit 0 offset (inside ++ [.leaf .endOfInput place []])))
    (hin : n.symbol.expr.inner = true) : n ∈ Node.preorderAll inside := by
  rcases List.mem_cons.1 hn with rfl | hn
  · cases hin
  · rw [Node.preorderAll_append, List.mem_append, Node.preorderAll_singleton] at hn
    refine hn.resolve_right fun hlast => ?_
    obtain rfl := List.mem_singleton.1 hlast
    cases hin

theorem exists_readAt_of_parse (h : parse source = .ok root) (hn : n ∈ root.preorder)
    (hin : n.symbol.expr.inner = true) :
    ∃ place mid, (Cursor.start source).Reaches place ∧ n.ReadAt place mid := by
  obtain ⟨inside, stop, hinside, -, rfl⟩ := parse_eq_ok_iff_inside.1 h
  obtain ⟨place, mid, hreach, hplace⟩ := hinside.exists_readAt (gapWidth_skipGap _) n
    (mem_preorder_inside hn hin)
  exact ⟨place, mid, (reaches_skipGap _).trans hreach, hplace⟩

theorem Node.ReadAt.start_eq (h : n.ReadAt place mid) : n.start = place.offset := by
  obtain ⟨hreads, -⟩ := h
  cases n <;> cases hreads <;> rfl

/-- A node is read at the place where it starts, and nowhere else. -/
theorem Node.ReadAt.eq_of_start {other : Node} {place' mid' : Cursor} (h : n.ReadAt place mid)
    (h' : other.ReadAt place' mid') (hreach : (Cursor.start source).Reaches place)
    (hreach' : (Cursor.start source).Reaches place') (hstart : n.start = other.start) :
    place = place' :=
  hreach.eq_of_offset hreach' (h.start_eq.symm.trans (hstart.trans h'.start_eq))

/-- Behind a node of a symbol that is asked for only in front of a part, the part is read. -/
theorem Node.ReadAt.tied {part : Expr Rule} (hplace : n.ReadAt place mid)
    (h : parse source = .ok root) (hreach : (Cursor.start source).Reaches place)
    (hall : ∀ r ∈ Rule.all, r.body.ties n.symbol part = true) (hn : n ∈ root.preorder)
    (hin : n.symbol.expr.inner = true) (hunit : n.symbol ≠ .rule .translationUnit) :
    ∃ more last, Reads (.once part) (skipGap mid) (some (more, last)) := by
  obtain ⟨inside, stop, hinside, -, rfl⟩ := parse_eq_ok_iff_inside.1 h
  obtain ⟨place', mid', hreach', hplace', htied⟩ := hinside.tied_inside (gapWidth_skipGap _)
    (decide_eq_true hunit.symm) hall rfl (mem_preorder_inside hn hin)
  obtain rfl := hplace.eq_of_start hplace' hreach ((reaches_skipGap _).trans hreach') rfl
  obtain ⟨-, rfl⟩ := Prod.mk.inj (Option.some.inj (hplace.reads.unique hplace'.reads))
  exact htied

theorem Node.ReadAt.passes (h : n.ReadAt place mid) (hin : n.symbol.expr.inner = true) :
    Passes place (Node.words [n]) mid := by
  have hapart : n.symbol.expr.Apart := by cases n.symbol <;> exact fun _ _ => rfl
  exact (h.reads.passes_words hin hapart h.ready).1

theorem Node.ReadAt.words_ne_nil (h : n.ReadAt place mid) (hin : n.symbol.expr.inner = true) :
    Node.words [n] ≠ [] := by
  intro hnil
  have hpasses := h.passes hin
  rw [hnil] at hpasses
  have hlength := h.reads.length_lt hin (by cases n.symbol <;> rfl)
  rw [hpasses.stop_eq h.ready] at hlength
  exact Nat.lt_irrefl _ hlength

/-- The words behind those of a node are read from where the node ends. -/
theorem Node.ReadAt.passes_behind {before after : List Leaf} (hplace : n.ReadAt place mid)
    (h : parse source = .ok root) (hreach : (Cursor.start source).Reaches place)
    (hin : n.symbol.expr.inner = true)
    (hwords : Node.words [root] = before ++ Node.words [n] ++ after) :
    ∃ mid' stop, skipGap mid' = skipGap mid ∧ Passes mid' after stop ∧
      (skipGap stop).rest = [] := by
  obtain ⟨stop, hpasses, hstop, -⟩ := passes_of_parse h
  have hinner := hplace.passes hin
  obtain ⟨front, w, hw⟩ := (Node.words [n]).eq_nil_or_concat'.resolve_left
    (hplace.words_ne_nil hin)
  rw [hwords, hw, List.append_assoc before, List.append_assoc front, ← List.append_assoc] at hpasses
  rw [hw] at hinner
  obtain ⟨a, k, ha, -, hk, hstart, -, hafter⟩ := hpasses.split
  obtain ⟨b, l, hb, -, hl, hstart', -, hlast⟩ := hinner.split
  -- The last word of the node is read at one place.
  obtain rfl : a = b := ha.reaches.eq_of_offset (hreach.trans hb.reaches)
    (hstart.symm.trans hstart')
  obtain rfl := Option.some.inj (hk.symm.trans hl)
  exact ⟨a.advance k, stop, hlast.nothing.symm, hafter, hstop⟩

end

/-! ## The next word -/

deriving instance DecidableEq for Leaf

/-- In the order of the words of the tree, the word stands right behind those of the node. -/
def Node.NextWord (root node : Node) (word : Leaf) : Prop :=
  ∃ before after, words [root] = before ++ words [node] ++ word :: after

/-- A node of a fixed source with the word behind it, found by going over the nodes. -/
lemma exists_nextWord (source : String) (P : Node → Prop) [DecidablePred P]
    (before after : List Leaf) (next : Leaf)
    (h : (Source.parse source).toOption.map (fun root => root.preorder.any fun n =>
      decide (P n ∧ Node.words [root] = before ++ Node.words [n] ++ next :: after)) = some true) :
    ∃ root n, Source.parse source = .ok root ∧ n ∈ root.preorder ∧ P n ∧ root.NextWord n next := by
  obtain ⟨root, hparse, hany⟩ := exists_ok_of_map h
  obtain ⟨n, hn, hboth⟩ := List.any_eq_true.1 hany
  obtain ⟨hP, hwords⟩ := of_decide_eq_true hboth
  exact ⟨root, n, hparse, hn, hP, before, after, hwords⟩

end CTree.Parse
