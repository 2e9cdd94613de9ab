import CTree.Tree.Basic
import Mathlib.Tactic

/-!
# Sorting the nodes of a rose tree

`Rose.toTree` walks a tree with the entered nodes in a list. `Rose.sorted` is the
plain recursion, and the two agree: a node on the list stands for the tree that it
will become once the tree at hand is put in its place. The walk decides the form of a
node by the number of children it was entered with. This is the number of those that
are done, for the walk enters each node once.
-/
namespace CTree.Tree

/-! ## A label over any number of children -/

theorem ofParts_of_two_le {label : String} {ts : List Tree} (h : 2 ≤ ts.length) :
    ofParts label ts = nary label ts := by
  rcases ts with _ | ⟨t, _ | ⟨t', ts⟩⟩
  · simp at h
  · simp at h
  · rfl

theorem ofParts_inj {a b : String} {ts us : List Tree} :
    ofParts a ts = ofParts b us ↔ a = b ∧ ts = us := by
  rcases ts with _ | ⟨t, _ | ⟨t', ts⟩⟩ <;> rcases us with _ | ⟨u, _ | ⟨u', us⟩⟩ <;> simp [ofParts]

theorem depth_ofParts (label : String) (ts : List Tree) :
    (ofParts label ts).depth = depthBelow ts := by
  rcases ts with _ | ⟨t, _ | ⟨t', ts⟩⟩ <;> simp [ofParts, depth, depthBelow]

end CTree.Tree

namespace CTree.Rose

mutual

/-- The tree with the same labels, by recursion. -/
def sorted : Rose → Tree
  | node label children => .ofParts label (sortedAll children)

def sortedAll : List Rose → List Tree
  | [] => []
  | r :: rs => r.sorted :: sortedAll rs

end

theorem sorted_eq (rose : Rose) : rose.sorted = .ofParts rose.label (sortedAll rose.children) := by
  cases rose with
  | node _ _ => rw [sorted, Rose.label, Rose.children]

theorem sortedAll_eq_map (roses : List Rose) : sortedAll roses = roses.map sorted := by
  induction roses with
  | nil => rfl
  | cons r rs ih => rw [sortedAll, ih, List.map_cons]

/-! ## What a walk comes to -/

/-- No child is lost on a walk: each one is done, at hand, or to come. -/
structure Counted (frame : Frame) (stack : List Frame) : Prop where
  here : frame.count = frame.done.length + frame.pending.length
  around : ∀ f ∈ stack, f.count = f.done.length + 1 + f.pending.length

/-- What becomes of a tree that is the next child of the innermost node entered. -/
def unwind (tree : Tree) : List Frame → Tree
  | [] => tree
  | frame :: stack =>
    unwind (.ofParts frame.label (frame.done.reverse ++ tree :: sortedAll frame.pending)) stack

/-- The tree that a walk comes to from the node at hand. -/
def outcome (frame : Frame) (stack : List Frame) : Tree :=
  unwind (.ofParts frame.label (frame.done.reverse ++ sortedAll frame.pending)) stack

section Turns
variable {frame parent : Frame} {stack inner outer : List Frame} {child : Rose} {tree : Tree}

theorem counted_enter (rose : Rose) : Counted (.enter rose) [] := by
  constructor
  · simp [Frame.enter]
  · simp

/-- The number of children that a node was entered with is that of those done in the end. -/
theorem Counted.close_eq (h : Counted frame stack) (hpending : frame.pending = []) :
    frame.close = .ofParts frame.label frame.done.reverse := by
  have hcount := h.here
  obtain ⟨label, count, pending, done⟩ := frame
  obtain rfl : pending = [] := hpending
  obtain rfl : count = done.length := hcount
  rcases done with _ | ⟨t, _ | ⟨u, done⟩⟩
  · rfl
  · rfl
  · exact (Tree.ofParts_of_two_le (by simp)).symm

theorem Counted.turn_enter (h : Counted frame stack) (hturn : turn frame stack = .enter child inner) :
    Counted (.enter child) inner ∧ outcome (.enter child) inner = outcome frame stack := by
  obtain ⟨pending, hpending, rfl⟩ := Rose.turn_enter hturn
  have hcount := h.here
  rw [hpending, List.length_cons] at hcount
  refine ⟨⟨(counted_enter child).here, List.forall_mem_cons.2 ⟨?_, h.around⟩⟩, ?_⟩
  · dsimp only
    omega
  · simp only [outcome, unwind, Frame.enter, List.reverse_nil, List.nil_append, hpending, sortedAll,
      ← sorted_eq]

theorem Counted.turn_back (h : Counted frame stack) (hturn : turn frame stack = .back parent outer) :
    Counted parent outer ∧ outcome parent outer = outcome frame stack := by
  obtain ⟨hpending, waiting, rfl, rfl⟩ := Rose.turn_back hturn
  obtain ⟨hwaiting, haround⟩ := List.forall_mem_cons.1 h.around
  refine ⟨⟨hwaiting, haround⟩, ?_⟩
  simp [outcome, unwind, h.close_eq hpending, hpending, sortedAll]

theorem Counted.turn_over (h : Counted frame stack) (hturn : turn frame stack = .over tree) :
    tree = outcome frame stack := by
  obtain ⟨hpending, rfl, rfl⟩ := Rose.turn_over hturn
  simp [outcome, unwind, h.close_eq hpending, hpending, sortedAll]

end Turns

theorem finish_eq {frame : Frame} {stack : List Frame} (h : Counted frame stack) :
    finish frame stack = outcome frame stack := by
  induction frame, stack using finish.induct with
  | case1 frame stack child inner hturn ih =>
    obtain ⟨hcount, houtcome⟩ := h.turn_enter hturn
    rw [finish, hturn, ← houtcome]
    exact ih hcount
  | case2 frame stack parent outer hturn ih =>
    obtain ⟨hcount, houtcome⟩ := h.turn_back hturn
    rw [finish, hturn, ← houtcome]
    exact ih hcount
  | case3 frame stack tree hturn =>
    rw [finish, hturn]
    exact h.turn_over hturn

theorem toTree_eq_sorted (rose : Rose) : rose.toTree = rose.sorted := by
  rw [toTree, finish_eq (counted_enter rose), outcome, unwind, Frame.enter, sorted_eq]
  rfl

/-! ## The nodes that are entered -/

mutual

/-- The nodes of a tree, a node in front of its children. -/
def preorder : Rose → List Rose
  | node label children => node label children :: preorderAll children

def preorderAll : List Rose → List Rose
  | [] => []
  | r :: rs => r.preorder ++ preorderAll rs

end

theorem preorder_eq (rose : Rose) : rose.preorder = rose :: preorderAll rose.children := by
  cases rose with
  | node _ _ => rw [preorder, Rose.children]

/-- The nodes that a walk enters from here on. -/
def entered (frame : Frame) (stack : List Frame) : List Rose :=
  match _h : turn frame stack with
  | .enter child inner => child :: entered (.enter child) inner
  | .back parent outer => entered parent outer
  | .over _ => []
termination_by weight frame stack
decreasing_by
  · exact weight_enter _h
  · exact weight_back _h

/-- All that is to come is entered, and nothing else. -/
theorem entered_eq (frame : Frame) (stack : List Frame) :
    entered frame stack = (frame :: stack).flatMap (preorderAll ·.pending) := by
  induction frame, stack using entered.induct with
  | case1 frame stack child inner hturn ih =>
    obtain ⟨pending, hpending, rfl⟩ := turn_enter hturn
    rw [entered, hturn]
    simp only [ih]
    simp [hpending, Frame.enter, preorderAll, preorder_eq child]
  | case2 frame stack parent outer hturn ih =>
    obtain ⟨hpending, waiting, rfl, rfl⟩ := turn_back hturn
    rw [entered, hturn]
    simp only [ih]
    simp [hpending, preorderAll]
  | case3 frame stack tree hturn =>
    obtain ⟨hpending, rfl, -⟩ := turn_over hturn
    rw [entered, hturn]
    simp [hpending, preorderAll]

/-- The nodes that the walk of a whole tree enters. -/
def visits (rose : Rose) : List Rose := rose :: entered (.enter rose) []

theorem visits_eq (rose : Rose) : rose.visits = rose.preorder := by
  simp [visits, entered_eq, preorder_eq, Frame.enter]

mutual

theorem length_preorder : (rose : Rose) → rose.preorder.length = rose.size
  | node _ children => by
    rw [preorder, List.length_cons, length_preorderAll children, size]

theorem length_preorderAll : (roses : List Rose) →
    (preorderAll roses).length = sizeOfAll roses
  | [] => rfl
  | r :: rs => by
    rw [preorderAll, List.length_append, length_preorder r, length_preorderAll rs, sizeOfAll]

end

/-! ## What sorting keeps -/

mutual

/-- The number of edges on the longest way down. -/
def height : Rose → Nat
  | node _ children => heightBelow children

/-- The height of a node over these children. -/
def heightBelow : List Rose → Nat
  | [] => 0
  | r :: rs => max (r.height + 1) (heightBelow rs)

end

mutual

theorem depth_sorted : (rose : Rose) → rose.sorted.depth = rose.height
  | node _ children => by
    rw [sorted, Tree.depth_ofParts, depthBelow_sortedAll children, height]

theorem depthBelow_sortedAll : (roses : List Rose) →
    Tree.depthBelow (sortedAll roses) = heightBelow roses
  | [] => rfl
  | r :: rs => by
    rw [sortedAll, Tree.depthBelow, depth_sorted r, depthBelow_sortedAll rs, heightBelow]

end

mutual

theorem sorted_inj : {r s : Rose} → r.sorted = s.sorted → r = s
  | node _ _, node _ _, h => by
    obtain ⟨rfl, hchildren⟩ := Tree.ofParts_inj.1 h
    rw [sortedAll_inj hchildren]

theorem sortedAll_inj : {rs ss : List Rose} → sortedAll rs = sortedAll ss → rs = ss
  | [], [], _ => rfl
  | [], _ :: _, h | _ :: _, [], h => by simp [sortedAll] at h
  | _ :: _, _ :: _, h => by
    obtain ⟨hhead, htail⟩ := List.cons.inj h
    rw [sorted_inj hhead, sortedAll_inj htail]

end

mutual

/-- The labels of the nodes without children from left to right. -/
def leaves : Rose → List String
  | node label [] => [label]
  | node _ (child :: children) => leavesOf (child :: children)

def leavesOf : List Rose → List String
  | [] => []
  | r :: rs => r.leaves ++ leavesOf rs

end

mutual

theorem leaves_sorted : (rose : Rose) → rose.sorted.leaves = rose.leaves
  | node label [] => by simp [sorted, sortedAll, Tree.ofParts, Tree.leaves, leaves]
  | node label [child] => by
    simp [sorted, sortedAll, Tree.ofParts, Tree.leaves, leaves, leavesOf, leaves_sorted child]
  | node label (child :: second :: children) => by
    have h := leavesOf_sortedAll (child :: second :: children)
    simpa [sorted, sortedAll, Tree.ofParts, Tree.leaves, leaves] using h

theorem leavesOf_sortedAll : (roses : List Rose) →
    Tree.leavesOf (sortedAll roses) = leavesOf roses
  | [] => by simp [sortedAll, Tree.leavesOf, leavesOf]
  | r :: rs => by
    simp [sortedAll, Tree.leavesOf, leavesOf, leaves_sorted r, leavesOf_sortedAll rs]

end

/-- Sorting keeps the leaves. -/
theorem leaves_toTree (rose : Rose) : rose.toTree.leaves = rose.leaves := by
  rw [toTree_eq_sorted, leaves_sorted]

end CTree.Rose
