import CTree.Json.Writer
import CTree.Tree.Basic

/-!
# Trees as JSON

A leaf is a string. A node is an object whose only key is its label, over its
child, or over the array of its children where it has several. Trees are written
down to a limited depth, and read down to the same depth.

`Tree.ofJson` keeps the nodes it has entered in a list, which is also the path by
which a message names the offending value.
-/
namespace CTree.Tree

/-- The greatest depth of a tree that is written or read. -/
def maxDepth : Nat := 1024

mutual

def toJson : Tree → Json
  | leaf label => .string label
  | unary label child => .object [(label, child.toJson)]
  | nary label children => .object [(label, .array (toJsonAll children))]

def toJsonAll : List Tree → List Json
  | [] => []
  | t :: ts => t.toJson :: toJsonAll ts

end

/-! ## Writing -/

/-- Appends what stands in front of the value of a node. -/
def openNode (layout : Json.Layout) (level : Nat) (label : String) (out : String) : String :=
  Json.writeString label (layout.lineBreak (level + 1) (out.push '\x7b')) ++ layout.colon

def closeNode (layout : Json.Layout) (level : Nat) (out : String) : String :=
  (layout.lineBreak level out).push '\x7d'

mutual

/-- Appends the document of a tree that stands at the given level. -/
def write (layout : Json.Layout) (level : Nat) : Tree → String → String
  | leaf label, out => Json.writeString label out
  | unary label child, out =>
    closeNode layout level (child.write layout (level + 1) (openNode layout level label out))
  | nary label children, out =>
    let out := openNode layout level label out
    closeNode layout level (writeArray layout (level + 1) children out)

/-- Appends the children of a node that stand in an array. -/
def writeArray (layout : Json.Layout) (level : Nat) : List Tree → String → String
  | [], out => out ++ "[]"
  | t :: ts, out =>
    let out := t.write layout (level + 1) (layout.lineBreak (level + 1) (out.push '['))
    (layout.lineBreak level (writeOthers layout (level + 1) ts out)).push ']'

/-- Appends further children. -/
def writeOthers (layout : Json.Layout) (level : Nat) : List Tree → String → String
  | [], out => out
  | t :: ts, out =>
    writeOthers layout level ts (t.write layout level (layout.lineBreak level (out.push ',')))

end

/-- The document of a tree, or the depth of one that is too deep. -/
def encode (layout : Json.Layout) (tree : Tree) : Except Nat String :=
  if maxDepth < tree.depth then .error tree.depth else .ok (tree.write layout 0 "")

/-! ## Reading -/

/-- What is wrong with a value that stands where a tree should. -/
inductive Misfit
  /-- An object with this many keys. -/
  | keys (count : Nat)
  /-- Neither a string nor an object, described in words. -/
  | kind (description : String)
  /-- The array of the node's children is too short. -/
  | children (label : String) (count : Nat)
  | tooDeep
  deriving Repr, DecidableEq

/-- One step down: the label of a node, and which child, if it has several. -/
structure Step where
  label : String
  index : Option Nat
  deriving Repr, DecidableEq

structure Fault where
  /-- From the root down. -/
  path : List Step
  misfit : Misfit
  deriving Repr, DecidableEq

def Step.text (step : Step) : String :=
  match step.index with
  | none => "." ++ step.label
  | some i => "." ++ step.label ++ "[" ++ toString i ++ "]"

/-- The path by which a message names a value. -/
def pathText (path : List Step) : String := path.foldl (fun text step => text ++ step.text) "$"

def Fault.message (fault : Fault) : String :=
  let path := pathText fault.path
  match fault.misfit with
  | .keys count => s!"expected exactly one key at {path}, found {count}"
  | .kind description =>
    s!"expected a string or a single-key object at {path}, found {description}"
  | .children label count =>
    s!"array at {path}.{label} has {count} elements; multi-child nodes have at least 2"
  | .tooDeep => s!"tree at {path} is nested deeper than {maxDepth} levels"

/-- A value by its outermost form. -/
inductive Opened
  | leaf (label : String)
  /-- A node, whether it has several children, and the values of its children. -/
  | node (label : String) (several : Bool) (first : Json) (others : List Json)

def Opened.ofJson : Json → Except Misfit Opened
  | .string label => .ok (.leaf label)
  | .object [(label, .array (first :: second :: others))] =>
    .ok (.node label true first (second :: others))
  | .object [(label, .array items)] => .error (.children label items.length)
  | .object [(label, child)] => .ok (.node label false child [])
  | .object members => .error (.keys members.length)
  | value => .error (.kind value.description)

/-- A node that was entered: the values of the children to come behind the one that
is read, and the children that are done, the last one first. -/
structure Frame where
  label : String
  several : Bool
  pending : List Json
  done : List Tree

namespace Frame

def step (frame : Frame) : Step :=
  ⟨frame.label, if frame.several then some frame.done.length else none⟩

/-- The node, once its last child is read. -/
def close (frame : Frame) (last : Tree) : Tree :=
  if frame.several then nary frame.label (last :: frame.done).reverse
  else unary frame.label last

end Frame

/-- The path to the value that is read inside of the given nodes, innermost first. -/
def pathOf (stack : List Frame) : List Step := (stack.map Frame.step).reverse

section
open Json (null bool number string array object)

mutual

/-- The number of values inside of a value. -/
def jsonSize : Json → Nat
  | array items => jsonSizeItems items + 1
  | object members => jsonSizeMembers members + 1
  | _ => 1

def jsonSizeItems : List Json → Nat
  | [] => 0
  | j :: js => jsonSize j + jsonSizeItems js

def jsonSizeMembers : List (String × Json) → Nat
  | [] => 0
  | (_, j) :: ms => jsonSize j + jsonSizeMembers ms

end

theorem jsonSize_pos (j : Json) : 0 < jsonSize j := by
  cases j <;> simp [jsonSize]

/-- The children of a node are smaller than the node. -/
theorem jsonSize_opened {j first : Json} {label : String} {several : Bool} {others : List Json}
    (h : Opened.ofJson j = .ok (.node label several first others)) :
    jsonSize first + jsonSizeItems others < jsonSize j := by
  unfold Opened.ofJson at h
  split at h
  · simp at h
  · simp only [Except.ok.injEq, Opened.node.injEq] at h
    obtain ⟨-, -, rfl, rfl⟩ := h
    simp only [jsonSize, jsonSizeItems, jsonSizeMembers]
    omega
  · simp at h
  · simp only [Except.ok.injEq, Opened.node.injEq] at h
    obtain ⟨-, -, rfl, rfl⟩ := h
    simp only [jsonSize, jsonSizeItems, jsonSizeMembers]
    omega
  · simp at h
  · simp at h

/-- The values that are still to be read. -/
def pendingSize : List Frame → Nat
  | [] => 0
  | frame :: stack => jsonSizeItems frame.pending + pendingSize stack

end

/-- What is at hand: a value to be read, or a tree that was read. -/
inductive Work
  | value (value : Json)
  | tree (tree : Tree)

def Work.cost : Work → Nat
  | .value j => 2 * jsonSize j + 1
  | .tree _ => 2

/-- Goes on with what is at hand, inside of the nodes `stack`. -/
def convert (work : Work) (stack : List Frame) : Except Fault Tree :=
  match work, stack with
  | .value value, stack =>
    match _h : Opened.ofJson value with
    | .error misfit => .error ⟨pathOf stack, misfit⟩
    | .ok (.leaf label) => convert (.tree (leaf label)) stack
    | .ok (.node label several first others) =>
      if stack.length < maxDepth then
        convert (.value first) (⟨label, several, others, []⟩ :: stack)
      else .error ⟨pathOf stack, .tooDeep⟩
  | .tree tree, [] => .ok tree
  | .tree tree, frame :: stack =>
    match _h : frame.pending with
    | child :: pending =>
      convert (.value child)
        ({ frame with pending := pending, done := tree :: frame.done } :: stack)
    | [] => convert (.tree (frame.close tree)) stack
termination_by work.cost + 2 * pendingSize stack + stack.length
decreasing_by
  · have := jsonSize_pos value
    simp only [Work.cost]
    omega
  · have := jsonSize_opened _h
    simp only [Work.cost, pendingSize, List.length_cons]
    omega
  · simp only [Work.cost, pendingSize, _h, jsonSizeItems, List.length_cons]
    omega
  · simp only [Work.cost, pendingSize, _h, jsonSizeItems, List.length_cons]
    omega

/-- The tree of a JSON value. -/
def ofJson (value : Json) : Except Fault Tree := convert (.value value) []

end CTree.Tree
