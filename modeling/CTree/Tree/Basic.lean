import CTree.Parse.Node

/-!
# Trees

The value of a source as others read it: labels and nothing else. A node without
children is a leaf, a node with one child is kept apart from a node with several,
because the two are written differently.

`Rose` is the plain form of the same trees, where a node has any number of
children. `Rose.toTree` sorts the nodes by that number. It keeps the nodes it has
entered in a list, so that a deep tree needs no deep recursion.
-/
namespace CTree

inductive Tree
  | leaf (label : String)
  | unary (label : String) (child : Tree)
  | nary (label : String) (children : List Tree)
  deriving Inhabited

namespace Tree

mutual

/-- Whether two trees are equal. -/
def same : Tree → Tree → Bool
  | leaf a, leaf b => a = b
  | unary a t, unary b u => a = b && t.same u
  | nary a ts, nary b us => a = b && sameAll ts us
  | _, _ => false

def sameAll : List Tree → List Tree → Bool
  | [], [] => true
  | t :: ts, u :: us => t.same u && sameAll ts us
  | _, _ => false

end

mutual

theorem same_iff : (t u : Tree) → (t.same u = true ↔ t = u)
  | leaf a, leaf b => by simp [same]
  | unary a t, unary b u => by simp [same, same_iff t u]
  | nary a ts, nary b us => by simp [same, sameAll_iff ts us]
  | leaf _, unary .. | leaf _, nary .. | unary .., leaf _ | unary .., nary ..
  | nary .., leaf _ | nary .., unary .. => by simp [same]

theorem sameAll_iff : (ts us : List Tree) → (sameAll ts us = true ↔ ts = us)
  | [], [] => by simp [sameAll]
  | t :: ts, u :: us => by simp [sameAll, same_iff t u, sameAll_iff ts us]
  | [], _ :: _ | _ :: _, [] => by simp [sameAll]

end

instance : DecidableEq Tree := fun t u => decidable_of_iff _ (same_iff t u)

def label : Tree → String
  | leaf label => label
  | unary label _ => label
  | nary label _ => label

def isLeaf : Tree → Bool
  | leaf _ => true
  | _ => false

/-- Which of the three forms the tree has. -/
def kind : Tree → String
  | leaf _ => "Leaf"
  | unary .. => "Unary"
  | nary .. => "Nary"

mutual

/-- The number of edges on the longest way down. -/
def depth : Tree → Nat
  | leaf _ => 0
  | unary _ child => child.depth + 1
  | nary _ children => depthBelow children

/-- The depth of a node over these children. -/
def depthBelow : List Tree → Nat
  | [] => 0
  | t :: ts => max (t.depth + 1) (depthBelow ts)

end

mutual

/-- The labels of the leaves from left to right. -/
def leaves : Tree → List String
  | leaf label => [label]
  | unary _ child => child.leaves
  | nary _ children => leavesOf children

def leavesOf : List Tree → List String
  | [] => []
  | t :: ts => t.leaves ++ leavesOf ts

end

/-- The tree of a label over any number of children. -/
def ofParts (label : String) : List Tree → Tree
  | [] => leaf label
  | [child] => unary label child
  | children => nary label children

end Tree

/-- A label over any number of children. -/
inductive Rose
  | node (label : String) (children : List Rose)
  deriving Inhabited

namespace Rose

def label : Rose → String
  | node label _ => label

def children : Rose → List Rose
  | node _ children => children

def isLeaf (rose : Rose) : Bool := rose.children.isEmpty

mutual

/-- The number of nodes. -/
def size : Rose → Nat
  | node _ children => sizeOfAll children + 1

def sizeOfAll : List Rose → Nat
  | [] => 0
  | r :: rs => r.size + sizeOfAll rs

end

theorem size_eq (rose : Rose) : rose.size = sizeOfAll rose.children + 1 := by
  cases rose with
  | node label children => rw [size, Rose.children]

/-- A node that was entered: how many children it has, those to come, and the trees of
those that are done, the last one first. -/
structure Frame where
  label : String
  count : Nat
  pending : List Rose
  done : List Tree

namespace Frame

def enter (rose : Rose) : Frame := ⟨rose.label, rose.children.length, rose.children, []⟩

/-- The node, once its children are done. Its form is that of the number of children with
which it was entered. -/
def close (frame : Frame) : Tree :=
  match frame.count, frame.done with
  | 0, _ | 1, [] => .leaf frame.label
  | 1, tree :: _ => .unary frame.label tree
  | _, done => .nary frame.label done.reverse

end Frame

/-- The nodes that are still to be entered. -/
def pendingSize : List Frame → Nat
  | [] => 0
  | frame :: frames => sizeOfAll frame.pending + pendingSize frames

/-- How a walk goes on from the node at hand. -/
inductive Turn
  /-- A child is entered, inside of these nodes. -/
  | enter (child : Rose) (stack : List Frame)
  /-- The node is closed, and its parent is at hand. -/
  | back (parent : Frame) (stack : List Frame)
  | over (tree : Tree)

/-- One turn of the walk that is at the node `frame`, inside of the nodes `stack`. -/
def turn (frame : Frame) (stack : List Frame) : Turn :=
  match frame.pending with
  | child :: pending => .enter child ({ frame with pending := pending } :: stack)
  | [] =>
    match stack with
    | [] => .over frame.close
    | parent :: stack => .back { parent with done := frame.close :: parent.done } stack

section Turns
variable {frame parent : Frame} {stack inner outer : List Frame} {child : Rose} {tree : Tree}

theorem turn_enter (h : turn frame stack = .enter child inner) :
    ∃ pending, frame.pending = child :: pending ∧
      inner = { frame with pending := pending } :: stack := by
  unfold turn at h
  split at h
  · rename_i pending hpending
    obtain ⟨rfl, rfl⟩ := by simpa using h
    exact ⟨pending, hpending, rfl⟩
  · split at h <;> cases h

theorem turn_back (h : turn frame stack = .back parent outer) :
    frame.pending = [] ∧ ∃ waiting, stack = waiting :: outer ∧
      parent = { waiting with done := frame.close :: waiting.done } := by
  unfold turn at h
  split at h
  · cases h
  · rename_i hpending
    split at h
    · cases h
    · rename_i waiting outer'
      obtain ⟨rfl, rfl⟩ := by simpa using h
      exact ⟨hpending, waiting, rfl, rfl⟩

theorem turn_over (h : turn frame stack = .over tree) :
    frame.pending = [] ∧ stack = [] ∧ tree = frame.close := by
  unfold turn at h
  split at h
  · cases h
  · rename_i hpending
    split at h
    · cases h
      exact ⟨hpending, rfl, rfl⟩
    · cases h

/-- What is left of a walk. -/
def weight (frame : Frame) (stack : List Frame) : Nat :=
  2 * pendingSize (frame :: stack) + stack.length

theorem weight_enter (h : turn frame stack = .enter child inner) :
    weight (.enter child) inner < weight frame stack := by
  obtain ⟨pending, hpending, rfl⟩ := turn_enter h
  have hsize := child.size_eq
  simp only [weight, pendingSize, Frame.enter, hpending, sizeOfAll, List.length_cons]
  omega

theorem weight_back (h : turn frame stack = .back parent outer) :
    weight parent outer < weight frame stack := by
  obtain ⟨-, waiting, rfl, rfl⟩ := turn_back h
  simp only [weight, pendingSize, List.length_cons]
  omega

end Turns

/-- Finishes the node `frame`, which is entered inside of the nodes `stack`. -/
def finish (frame : Frame) (stack : List Frame) : Tree :=
  match _h : turn frame stack with
  | .enter child inner => finish (.enter child) inner
  | .back parent outer => finish parent outer
  | .over tree => tree
termination_by weight frame stack
decreasing_by
  · exact weight_enter _h
  · exact weight_back _h

/-- The tree with the same labels, its nodes sorted by their number of children. -/
def toTree (rose : Rose) : Tree := finish (.enter rose) []

end Rose

namespace Parse.Node

mutual

/-- The labels of a parse tree: a token is labelled with its text, a rule with its
name. The end of the text has no text and is marked. -/
def toRose : Node → Rose
  | leaf .endOfInput _ _ => .node "<EOF>" []
  | leaf token _ [] => .node token.name []
  | leaf _ _ text => .node (String.ofList text) []
  | branch rule _ _ children => .node rule.name (toRoses children)

def toRoses : List Node → List Rose
  | [] => []
  | n :: ns => n.toRose :: toRoses ns

end

def toTree (node : Node) : Tree := node.toRose.toTree

end Parse.Node
end CTree
