import CTree.Proofs.RoseTree
import CTree.Proofs.RuleLanguage
import CTree.Proofs.TreeConversion

/-!
# A walk is a recursion

The tree that a walk comes to is that of the plain recursion over the nodes, and so it
has the leaves, the height and the form of each node. Nothing of the labels or of the
shape is lost: trees that are sorted alike are equal. The same recursion describes the
tree of a source, from the nodes that were read.
-/
namespace CTree.Rose
open CTree.Tree (wellFormed wellFormedAll)

mutual

theorem wellFormed_sorted : (rose : Rose) → rose.sorted.wellFormed = true
  | node _ [] => rfl
  | node _ [child] => by
    simpa [sorted, sortedAll, Tree.ofParts, wellFormed] using wellFormed_sorted child
  | node _ (child :: second :: children) => by
    have h := wellFormedAll_sortedAll (child :: second :: children)
    simpa [sorted, sortedAll, Tree.ofParts, wellFormed] using h

theorem wellFormedAll_sortedAll : (roses : List Rose) → wellFormedAll (sortedAll roses) = true
  | [] => rfl
  | r :: rs => by
    simp [sortedAll, wellFormedAll, wellFormed_sorted r, wellFormedAll_sortedAll rs]

end

/-- What it means that a walk of a rose tree comes to a tree with the same nodes. -/
structure Walked (rose : Rose) : Prop where
  recursion : rose.toTree = .ofParts rose.label (rose.children.map toTree)
  visits : rose.visits = rose.preorder ∧ rose.visits.length = rose.size
  wellFormed : rose.toTree.wellFormed = true
  depth : rose.toTree.depth = rose.height
  leaves : rose.toTree.leaves = rose.leaves

theorem walked (rose : Rose) : rose.Walked := by
  have hsorted := toTree_eq_sorted rose
  constructor
  · rw [hsorted, sorted_eq, sortedAll_eq_map, funext toTree_eq_sorted]
  · rw [visits_eq]
    exact ⟨rfl, length_preorder rose⟩
  · rw [hsorted, wellFormed_sorted]
  · rw [hsorted, depth_sorted]
  · rw [leaves_toTree]

theorem toTree_inj {r s : Rose} : r.toTree = s.toTree ↔ r = s := by
  rw [toTree_eq_sorted, toTree_eq_sorted]
  exact ⟨sorted_inj, congrArg sorted⟩

end CTree.Rose

namespace CTree.Parse
open CTree.Grammar CTree.Text

/-- A walk enters each node once and comes to the tree of the recursion, from which the rose
tree is seen again. The tree of a source follows the same recursion over the nodes read. -/
theorem toTree_recursive :
    (∀ rose : Rose, rose.Walked) ∧
    (∀ r s : Rose, r.toTree = s.toTree ↔ r = s) ∧
    ∀ source root, Source.parse source = .ok root →
      Source.toTree source = .ok root.toTree ∧
      ∀ node ∈ root.preorder, node.toTree = .ofParts node.label (node.children.map Node.toTree) := by
  refine ⟨Rose.walked, fun r s => Rose.toTree_inj, fun source root h => ?_⟩
  refine ⟨source_toTree_eq h, fun node hnode => ?_⟩
  obtain ⟨stop, hreads⟩ := parse_eq_ok_iff.1 (source_parse_eq_ok_iff.1 h)
  rw [← Node.preorderAll_singleton] at hnode
  exact (hreads.derived node hnode).toTree_eq

/-- The function has a rule with one part, one with several, and tokens. -/
theorem toTree_recursive_function : ∃ root, Source.parse "int f(void)\x7b\x7d" = .ok root ∧
    Source.toTree "int f(void)\x7b\x7d" = .ok root.toTree ∧
    ∀ node ∈ root.preorder, node.toTree = .ofParts node.label (node.children.map Node.toTree) := by
  have hname : (Source.parse "int f(void)\x7b\x7d").toOption.map Node.name =
      some "compilationUnit" := by
    decide +kernel
  obtain ⟨root, hparse, -⟩ := exists_ok_of_map hname
  exact ⟨root, hparse, toTree_recursive.2.2 _ root hparse⟩

end CTree.Parse
