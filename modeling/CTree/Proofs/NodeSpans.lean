import CTree.Proofs.Derivation

/-!
# The spans of a parse tree

The nodes that a goal yields lie in a row between the place where it began and the
place behind it. A rule spans from the first of these places to the second, hence
every node holds its children, and they do not overlap.
-/
namespace CTree.Parse
open CTree.Grammar CTree.Lexical CTree.Text

namespace Node

mutual

/-- All nodes of a tree, each in front of the nodes inside of it. -/
def preorder : Node → List Node
  | leaf token start text => [leaf token start text]
  | branch rule start stop children =>
    branch rule start stop children :: preorderAll children

def preorderAll : List Node → List Node
  | [] => []
  | n :: ns => n.preorder ++ preorderAll ns

end

theorem preorderAll_append (ns ms : List Node) :
    preorderAll (ns ++ ms) = preorderAll ns ++ preorderAll ms := by
  induction ns with
  | nil => rfl
  | cons n ns ih => simp only [List.cons_append, preorderAll, ih, List.append_assoc]

@[simp] theorem preorderAll_singleton (n : Node) : preorderAll [n] = n.preorder := by
  simp [preorderAll]

/-- The children lie inside of the node, each behind the one before it. -/
structure WellPlaced (node : Node) : Prop where
  span : node.start ≤ node.stop
  inside : ∀ child ∈ node.children, node.start ≤ child.start ∧ child.stop ≤ node.stop
  inOrder : node.children.Pairwise (·.stop ≤ ·.start)

theorem wellPlaced_leaf (token : Token) (start : Nat) (text : List Char) :
    (leaf token start text).WellPlaced where
  span := Nat.le_add_right _ _
  inside := by simp [children]
  inOrder := .nil

end Node

/-- The nodes lie one behind the other from one byte offset to another. -/
structure InRow (start stop : Nat) (nodes : List Node) : Prop where
  span : start ≤ stop
  inside : ∀ n ∈ nodes, start ≤ n.start ∧ n.stop ≤ stop
  inOrder : nodes.Pairwise (·.stop ≤ ·.start)

namespace InRow
variable {a b c d : Nat} {nodes more : List Node}

theorem nil (h : a ≤ b) : InRow a b [] := ⟨h, by simp, .nil⟩

theorem singleton {n : Node} (h : n.start ≤ n.stop) : InRow n.start n.stop [n] :=
  ⟨h, by simp, List.pairwise_singleton _ _⟩

theorem append (h : InRow a b nodes) (hmid : b ≤ c) (h' : InRow c d more) :
    InRow a d (nodes ++ more) := by
  have hab := h.span
  have hcd := h'.span
  refine ⟨by omega, ?_, List.pairwise_append.2 ⟨h.inOrder, h'.inOrder, ?_⟩⟩
  · intro n hn
    rcases List.mem_append.1 hn with hn | hn
    · have := h.inside n hn
      omega
    · have := h'.inside n hn
      omega
  · intro n hn m hm
    have hleft := h.inside n hn
    have hright := h'.inside m hm
    omega

theorem weaken (h : InRow b c nodes) (hab : a ≤ b) : InRow a c nodes := by
  have hrow := (nil hab).append (Nat.le_refl b) h
  simpa using hrow

end InRow

lemma offset_le_of_reaches {here stop : Cursor} (h : here.Reaches stop) :
    here.offset ≤ stop.offset := by
  obtain ⟨s, -, ho⟩ := h
  omega

lemma offset_le_skipGap (here : Cursor) : here.offset ≤ (skipGap here).offset :=
  offset_le_of_reaches (reaches_skipGap here)

section
variable {goal : Goal} {here stop : Cursor} {nodes : List Node}

/-- The nodes read lie between the places where reading began and ended. -/
theorem Reads.inRow (h : Reads goal here (some (nodes, stop))) :
    InRow here.offset stop.offset nodes := by
  induction h using Reads.match_induction with
  | nothing | noOpt | noMany | ahead | enough => exact .nil (Nat.le_refl _)
  | token t here n =>
    rw [Cursor.advance_offset]
    exact .singleton (n := .leaf t here.offset (here.rest.take n)) (Nat.le_add_right _ _)
  | rule r here nodes stop _ ih => exact .singleton (n := .branch r _ _ nodes) ih.span
  | first _ _ _ _ _ _ ih | second _ _ _ _ _ _ _ ih | opt _ _ _ _ _ ih => exact ih
  | seq _ _ _ _ mid _ _ _ _ ih ih' => exact ih.append (offset_le_skipGap mid) ih'
  | many _ _ _ _ _ _ _ _ ih ih' => exact ih.append (Nat.le_refl _) ih'
  | again _ here _ _ _ _ _ _ ih ih' =>
    exact (ih.append (Nat.le_refl _) ih').weaken (offset_le_skipGap here)

/-- Every node read, at any depth, holds its children in a row. -/
theorem Reads.wellPlaced (h : Reads goal here (some (nodes, stop))) :
    ∀ n ∈ Node.preorderAll nodes, n.WellPlaced := by
  induction h using Reads.match_induction with
  | nothing | noOpt | noMany | ahead | enough => simp [Node.preorderAll]
  | token t here n =>
    intro n hn
    obtain rfl := by simpa [Node.preorder] using hn
    exact Node.wellPlaced_leaf _ _ _
  | rule r here nodes stop h ih =>
    intro n hn
    rw [Node.preorderAll_singleton, Node.preorder, List.mem_cons] at hn
    rcases hn with rfl | hn
    · have hrow := h.inRow
      exact ⟨hrow.span, hrow.inside, hrow.inOrder⟩
    · exact ih n hn
  | first _ _ _ _ _ _ ih | second _ _ _ _ _ _ _ ih | opt _ _ _ _ _ ih => exact ih
  | seq _ _ _ _ _ _ _ _ _ ih ih' | many _ _ _ _ _ _ _ _ ih ih'
  | again _ _ _ _ _ _ _ _ ih ih' =>
    intro n hn
    rw [Node.preorderAll_append, List.mem_append] at hn
    exact hn.elim (ih n) (ih' n)

/-- What matches without a node may match without a token. -/
theorem Reads.nullable_of_nil {e : Expr Rule} (h : Reads (.once e) here (some ([], stop))) :
    e.nullable = true := by
  generalize hgoal : Goal.once e = goal at h
  generalize hnodes : ([] : List Node) = nodes at h
  induction h using Reads.match_induction generalizing e with
  | nothing | noOpt | noMany | ahead | opt | many =>
    cases hgoal
    rfl
  | again | enough => cases hgoal
  | token | rule => cases hnodes
  | first _ _ _ _ _ _ ih =>
    cases hgoal
    simp only [Expr.nullable, ih rfl hnodes, Bool.true_or]
  | second _ _ _ _ _ _ _ ih =>
    cases hgoal
    simp only [Expr.nullable, ih rfl hnodes, Bool.or_true]
  | seq _ _ _ _ _ _ _ _ _ ih ih' =>
    cases hgoal
    obtain ⟨hfirst, hsecond⟩ := List.append_eq_nil_iff.1 hnodes.symm
    simp only [Expr.nullable, ih rfl hfirst.symm, ih' rfl hsecond.symm, Bool.and_self]

/-- Every rule has a part. -/
theorem Reads.ne_nil_of_rule {r : Rule} (h : Reads (.once r.body) here (some (nodes, stop))) :
    nodes ≠ [] := by
  rintro rfl
  have hnull := h.nullable_of_nil
  rw [r.nullable_body] at hnull
  exact absurd hnull (by decide)

end
end CTree.Parse
