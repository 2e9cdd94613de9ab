import CTree.Proofs.TreeConversion

/-!
# Reading a tree by recursion

`Tree.ofJson` opens the values of a document one by one and keeps the nodes it has
entered in a list. `readAt` is the plain recursion over the value, and the two agree,
in the trees that they give and in the faults that they find. A fault is that of the
first value in pre-order that is not as it should be, and its path leads there.
-/
namespace CTree.Tree
open Json (null number string array object)

/-! ## The recursion -/

mutual

/-- The tree of the value that stands at the end of the path. -/
def readAt (path : List Step) : Json → Except Fault Tree
  | string label => .ok (leaf label)
  | object [(label, array items)] =>
    if items.length < 2 then .error ⟨path, .children label items.length⟩
    else if path.length < maxDepth then (readItems path label 0 items).map (nary label)
    else .error ⟨path, .tooDeep⟩
  | object [(label, child)] =>
    if path.length < maxDepth then (readAt (path ++ [⟨label, none⟩]) child).map (unary label)
    else .error ⟨path, .tooDeep⟩
  | object members => .error ⟨path, .keys members.length⟩
  | value => .error ⟨path, .kind value.description⟩

/-- The trees of the children of a node, from the one with the given index on. -/
def readItems (path : List Step) (label : String) (index : Nat) :
    List Json → Except Fault (List Tree)
  | [] => .ok []
  | item :: items => do
    let tree ← readAt (path ++ [⟨label, some index⟩]) item
    let trees ← readItems path label (index + 1) items
    return tree :: trees

end

/-! ## Faults in pre-order -/

mutual

/-- The values that stand where trees should, each with its path, a node in front of its
children and these from the first one on. -/
def nodesAt (path : List Step) : Json → List (List Step × Json)
  | object [(label, array items)] =>
    (path, object [(label, array items)]) :: nodesOfItems path label 0 items
  | object [(label, child)] =>
    (path, object [(label, child)]) :: nodesAt (path ++ [⟨label, none⟩]) child
  | value => [(path, value)]

def nodesOfItems (path : List Step) (label : String) (index : Nat) :
    List Json → List (List Step × Json)
  | [] => []
  | item :: items =>
    nodesAt (path ++ [⟨label, some index⟩]) item ++ nodesOfItems path label (index + 1) items

end

/-- What is wrong with a value that stands below so many nodes, whatever its children are.
Its form is looked at before its depth. -/
def misfit? (depth : Nat) : Json → Option Misfit
  | string _ => none
  | object [(label, array items)] =>
    if items.length < 2 then some (.children label items.length)
    else if depth < maxDepth then none else some .tooDeep
  | object [_] => if depth < maxDepth then none else some .tooDeep
  | object members => some (.keys members.length)
  | value => some (.kind value.description)

/-- The fault of the first value in pre-order that has one. -/
def firstFault (nodes : List (List Step × Json)) : Option Fault :=
  nodes.findSome? fun node => (misfit? node.1.length node.2).map fun misfit => ⟨node.1, misfit⟩

/-- The value at the end of a path. A step has an index exactly where the node has several
children. -/
def at? : Json → List Step → Option Json
  | value, [] => some value
  | object [(label, array items)], ⟨name, some i⟩ :: path =>
    if name = label then items[i]?.bind (at? · path) else none
  | object [(_, array _)], ⟨_, none⟩ :: _ => none
  | object [(label, child)], ⟨name, none⟩ :: path => if name = label then at? child path else none
  | _, _ :: _ => none

/-! ## The forms of a value -/

/-- A value that is no tree and has no place for one inside. -/
structure Unfit (value : Json) (misfit : Misfit) : Prop where
  opened : Opened.ofJson value = .error misfit
  read (path : List Step) : readAt path value = .error ⟨path, misfit⟩
  own (depth : Nat) : misfit? depth value = some misfit
  alone (path : List Step) : nodesAt path value = [(path, value)]

/-- A value by what it is to a reader of trees. -/
inductive Form : Json → Prop
  | string (label : String) : Form (string label)
  | several (label : String) (items : List Json) : Form (object [(label, array items)])
  | single (label : String) (child : Json) : (∀ items, child ≠ array items) →
      Form (object [(label, child)])
  | unfit {value : Json} {misfit : Misfit} : Unfit value misfit → Form value

theorem unfit_keys (m n : String × Json) (members : List (String × Json)) :
    Unfit (object (m :: n :: members)) (.keys (members.length + 2)) where
  opened := by simp [Opened.ofJson]
  read _ := by simp [readAt]
  own _ := by simp [misfit?]
  alone _ := by simp [nodesAt]

theorem form : (value : Json) → Form value
  | string label => .string label
  | object [(label, array items)] => .several label items
  | object [] | null | .bool _ | number _ | array _ =>
    .unfit ⟨rfl, fun _ => rfl, fun _ => rfl, fun _ => rfl⟩
  | object (m :: n :: members) => .unfit (unfit_keys m n members)
  | object [(label, null)] | object [(label, .bool _)] | object [(label, number _)]
  | object [(label, string _)] | object [(label, object _)] => .single label _ (by simp)

theorem ofJson_short {label : String} {items : List Json} (h : items.length < 2) :
    Opened.ofJson (object [(label, array items)]) = .error (.children label items.length) := by
  rcases items with _ | ⟨i, _ | ⟨k, items⟩⟩
  · rfl
  · rfl
  · simp at h

section
variable (label : String) {child : Json} (h : ∀ items, child ≠ array items)

include h

theorem ofJson_single :
    Opened.ofJson (object [(label, child)]) = .ok (.node label false child []) := by
  cases child <;> first | rfl | exact absurd rfl (h _)

theorem readAt_single (path : List Step) : readAt path (object [(label, child)]) =
    if path.length < maxDepth then (readAt (path ++ [⟨label, none⟩]) child).map (unary label)
    else .error ⟨path, .tooDeep⟩ := by
  cases child <;> first | rfl | exact absurd rfl (h _)

theorem misfit?_single (depth : Nat) : misfit? depth (object [(label, child)]) =
    if depth < maxDepth then none else some .tooDeep := by
  cases child <;> first | rfl | exact absurd rfl (h _)

theorem nodesAt_single (path : List Step) : nodesAt path (object [(label, child)]) =
    (path, object [(label, child)]) :: nodesAt (path ++ [⟨label, none⟩]) child := by
  cases child <;> first | rfl | exact absurd rfl (h _)

theorem at?_single (way : List Step) :
    at? (object [(label, child)]) (⟨label, none⟩ :: way) = at? child way := by
  cases child <;> first | exact absurd rfl (h _) | simp [at?]

end

/-- What holds of a value if it does of those that stand where the trees of its children
should. -/
@[elab_as_elim]
theorem form_induction {motive : Json → Prop}
    (unfit : ∀ {value misfit}, Unfit value misfit → motive value)
    (string : ∀ label, motive (string label))
    (several : ∀ label items, (∀ j ∈ items, motive j) → motive (object [(label, array items)]))
    (single : ∀ label child, (∀ items, child ≠ array items) → motive child →
      motive (object [(label, child)]))
    (value : Json) : motive value := by
  induction hsize : jsonSize value using Nat.strongRecOn generalizing value with
  | ind size ih =>
    subst hsize
    cases form value with
    | unfit h => exact unfit h
    | string label => exact string label
    | single label child h =>
      exact single label child h (ih _ (by simp only [jsonSize, jsonSizeMembers]; omega) child rfl)
    | several label items =>
      refine several label items fun j hj => ih _ ?_ j rfl
      have hlt := jsonSize_lt_of_mem hj
      simp only [jsonSize, jsonSizeMembers]
      omega

/-! ## The conversion is the recursion -/

theorem length_pathOf (stack : List Frame) : (pathOf stack).length = stack.length := by
  simp [pathOf]

theorem pathOf_cons (frame : Frame) (stack : List Frame) :
    pathOf (frame :: stack) = pathOf stack ++ [frame.step] := by
  simp [pathOf]

/-- Inside of whatever nodes, the conversion of a value goes on with what the recursion gives. -/
def Agrees (j : Json) : Prop :=
  ∀ stack, convert (.value j) stack =
    (readAt (pathOf stack) j).bind fun t => convert (.tree t) stack

/-- The further children of a node are read one after the other, each with the number of those
that are done as its index. -/
theorem convert_items {pending : List Json} (hread : ∀ j ∈ pending, Agrees j)
    (stack : List Frame) (label : String) (done : List Tree) (t : Tree) :
    convert (.tree t) (⟨label, true, pending, done⟩ :: stack) =
      (readItems (pathOf stack) label (done.length + 1) pending).bind fun ts =>
        convert (.tree (nary label (done.reverse ++ t :: ts))) stack := by
  induction pending generalizing done t with
  | nil =>
    rw [convert_close]
    simp [readItems, Except.bind, Frame.close]
  | cons j pending ih =>
    obtain ⟨hj, hpending⟩ := List.forall_mem_cons.1 hread
    have hstep : Frame.step ⟨label, true, pending, t :: done⟩ = ⟨label, some (done.length + 1)⟩ :=
      rfl
    rw [convert_next, hj, pathOf_cons, hstep, readItems]
    cases readAt (pathOf stack ++ [⟨label, some (done.length + 1)⟩]) j with
    | error fault => rfl
    | ok u =>
      have hmore := ih hpending (t :: done) u
      simp only [bind, Except.bind, List.length_cons, List.reverse_cons, List.append_assoc,
        List.singleton_append] at hmore ⊢
      rw [hmore]
      cases readItems (pathOf stack) label (done.length + 1 + 1) pending <;> rfl

theorem agrees_several {label : String} {items : List Json} (hread : ∀ j ∈ items, Agrees j) :
    Agrees (object [(label, array items)]) := by
  intro stack
  by_cases hlength : items.length < 2
  · rw [convert_fault (ofJson_short hlength), readAt, if_pos hlength]
    rfl
  obtain ⟨first, second, others, rfl⟩ : ∃ first second others,
      items = first :: second :: others := by
    rcases items with _ | ⟨i, _ | ⟨k, items⟩⟩
    · simp at hlength
    · simp at hlength
    · exact ⟨i, k, items, rfl⟩
  have hopen : Opened.ofJson (object [(label, array (first :: second :: others))]) =
      .ok (.node label true first (second :: others)) := rfl
  obtain ⟨hfirst, hothers⟩ := List.forall_mem_cons.1 hread
  rw [convert_node hopen, readAt, if_neg hlength, length_pathOf]
  split
  · rw [hfirst, pathOf_cons, Frame.step, readItems]
    simp only [if_true, List.length_nil]
    cases readAt (pathOf stack ++ [⟨label, some 0⟩]) first with
    | error fault => rfl
    | ok t =>
      have hmore := convert_items hothers stack label [] t
      simp only [bind, Except.bind] at hmore ⊢
      rw [hmore]
      cases readItems (pathOf stack) label (0 + 1) (second :: others) <;> rfl
  · rfl

theorem agrees_single {label : String} {child : Json} (h : ∀ items, child ≠ array items)
    (hread : Agrees child) : Agrees (object [(label, child)]) := by
  intro stack
  rw [convert_node (ofJson_single label h), readAt_single label h, length_pathOf]
  split
  · rw [hread, pathOf_cons, Frame.step]
    simp only [Bool.false_eq_true, if_false]
    cases readAt (pathOf stack ++ [⟨label, none⟩]) child with
    | error fault => rfl
    | ok t => exact convert_close t false []
  · rfl

theorem agrees (j : Json) : Agrees j := by
  induction j using form_induction with
  | unfit h =>
    intro stack
    rw [convert_fault h.opened, h.read, Except.bind]
  | string label => exact fun _ => convert_leaf
  | several label items ih => exact agrees_several ih
  | single label child h ih => exact agrees_single h ih

theorem ofJson_eq_readAt (value : Json) : ofJson value = readAt [] value := by
  rw [ofJson, agrees]
  show (readAt [] value).bind (fun t => convert (.tree t) []) = readAt [] value
  cases readAt [] value with
  | error fault => rfl
  | ok t => exact convert_done t

/-! ## The first fault -/

/-- The fault with which a reading ends. -/
def faultOf {A : Type} : Except Fault A → Option Fault
  | .error fault => some fault
  | .ok _ => none

theorem faultOf_map {A B : Type} (f : A → B) (result : Except Fault A) :
    faultOf (result.map f) = faultOf result := by
  cases result <;> rfl

theorem firstFault_append (ns ms : List (List Step × Json)) :
    firstFault (ns ++ ms) = (firstFault ns).or (firstFault ms) :=
  List.findSome?_append

theorem firstFault_cons_of_some {path : List Step} {j : Json} {misfit : Misfit}
    (h : misfit? path.length j = some misfit) (nodes : List (List Step × Json)) :
    firstFault ((path, j) :: nodes) = some ⟨path, misfit⟩ := by
  simp [firstFault, h]

theorem firstFault_cons_of_none {path : List Step} {j : Json}
    (h : misfit? path.length j = none) (nodes : List (List Step × Json)) :
    firstFault ((path, j) :: nodes) = firstFault nodes := by
  simp [firstFault, h]

theorem faultOf_readItems {items : List Json}
    (hread : ∀ j ∈ items, ∀ path, faultOf (readAt path j) = firstFault (nodesAt path j))
    (path : List Step) (label : String) (index : Nat) :
    faultOf (readItems path label index items) =
      firstFault (nodesOfItems path label index items) := by
  induction items generalizing index with
  | nil => rfl
  | cons j items ih =>
    obtain ⟨hj, hitems⟩ := List.forall_mem_cons.1 hread
    have hmore := ih hitems (index + 1)
    rw [nodesOfItems, firstFault_append, ← hj, ← hmore, readItems]
    cases readAt (path ++ [⟨label, some index⟩]) j with
    | error fault => rfl
    | ok t => cases readItems path label (index + 1) items <;> rfl

/-- A reading fails with the fault of the first value in pre-order that has one. -/
theorem faultOf_readAt (j : Json) (path : List Step) :
    faultOf (readAt path j) = firstFault (nodesAt path j) := by
  induction j using form_induction generalizing path with
  | unfit h =>
    rw [h.read, h.alone, firstFault_cons_of_some (h.own _)]
    rfl
  | string label => rfl
  | single label child h ih =>
    rw [readAt_single label h, nodesAt_single label h]
    split
    · rename_i hdepth
      rw [firstFault_cons_of_none (by rw [misfit?_single label h, if_pos hdepth]), faultOf_map]
      exact ih _
    · rename_i hdepth
      rw [firstFault_cons_of_some (by rw [misfit?_single label h, if_neg hdepth])]
      rfl
  | several label items ih =>
    rw [readAt, nodesAt]
    by_cases hlength : items.length < 2
    · rw [if_pos hlength, firstFault_cons_of_some (by rw [misfit?, if_pos hlength])]
      rfl
    rw [if_neg hlength]
    split
    · rename_i hdepth
      rw [firstFault_cons_of_none (by rw [misfit?, if_neg hlength, if_pos hdepth]), faultOf_map]
      exact faultOf_readItems ih path label 0
    · rename_i hdepth
      rw [firstFault_cons_of_some (by rw [misfit?, if_neg hlength, if_neg hdepth])]
      rfl

/-! ## Paths -/

/-- The node is reached from the value at the end of `path`. -/
def Reached (path : List Step) (value : Json) (node : List Step × Json) : Prop :=
  ∃ way, node.1 = path ++ way ∧ at? value way = some node.2

theorem reached_self (path : List Step) (value : Json) : Reached path value (path, value) :=
  ⟨[], (List.append_nil _).symm, by rw [at?]⟩

theorem reached_of_item {items : List Json} {path : List Step} {label : String}
    (hreach : ∀ j ∈ items, ∀ path, ∀ node ∈ nodesAt path j, Reached path j node)
    (before : List Json) {node : List Step × Json}
    (hnode : node ∈ nodesOfItems path label before.length items) :
    Reached path (object [(label, array (before ++ items))]) node := by
  induction items generalizing before with
  | nil => cases hnode
  | cons j items ih =>
    obtain ⟨hj, hitems⟩ := List.forall_mem_cons.1 hreach
    rcases List.mem_append.1 hnode with hnode | hnode
    · obtain ⟨way, hpath, hat⟩ := hj _ node hnode
      refine ⟨⟨label, some before.length⟩ :: way, by rw [hpath]; simp, ?_⟩
      simp [at?, hat]
    · have hmore := ih hitems (before ++ [j]) (by simpa using hnode)
      rwa [List.append_assoc] at hmore

/-- The path of each value leads to it. -/
theorem reached_of_mem (j : Json) (path : List Step) :
    ∀ node ∈ nodesAt path j, Reached path j node := by
  induction j using form_induction generalizing path with
  | unfit h =>
    intro node hnode
    rw [h.alone, List.mem_singleton] at hnode
    rw [hnode]
    exact reached_self path _
  | string label =>
    intro node hnode
    obtain rfl := List.mem_singleton.1 hnode
    exact reached_self path _
  | single label child h ih =>
    intro node hnode
    rw [nodesAt_single label h] at hnode
    rcases List.mem_cons.1 hnode with rfl | hnode
    · exact reached_self path _
    · obtain ⟨way, hpath, hat⟩ := ih _ node hnode
      refine ⟨⟨label, none⟩ :: way, by rw [hpath]; simp, ?_⟩
      rw [at?_single label h, hat]
  | several label items ih =>
    intro node hnode
    rw [nodesAt] at hnode
    rcases List.mem_cons.1 hnode with rfl | hnode
    · exact reached_self path _
    · exact reached_of_item ih [] hnode

/-! ## What is told of a fault -/

/-- What the message of a fault says in front of the place and behind it. -/
def Misfit.wording : Misfit → String × String
  | .keys count => ("expected exactly one key at ", s!", found {count}")
  | .kind description =>
    ("expected a string or a single-key object at ", s!", found {description}")
  | .children _ count => ("array at ", s!" has {count} elements; multi-child nodes have at least 2")
  | .tooDeep => ("tree at ", s!" is nested deeper than {maxDepth} levels")

/-- The labels from the root to the value, each with the index of the child that is entered
where there are several. An array that is too short is named by the label over it too. -/
def Fault.place (fault : Fault) : String :=
  "$" ++ String.join (fault.path.map Step.text) ++
    match fault.misfit with
    | .children label _ => "." ++ label
    | _ => ""

theorem pathText_eq (path : List Step) :
    pathText path = "$" ++ String.join (path.map Step.text) := by
  have hfrom : ∀ start : String, path.foldl (fun text step => text ++ step.text) start =
      start ++ String.join (path.map Step.text) := by
    induction path with
    | nil => simp
    | cons step path ih =>
      intro start
      rw [List.foldl_cons, ih, List.map_cons, String.join_cons, String.append_assoc]
  exact hfrom "$"

theorem Fault.message_eq (fault : Fault) :
    fault.message = fault.misfit.wording.1 ++ fault.place ++ fault.misfit.wording.2 := by
  obtain ⟨path, misfit⟩ := fault
  cases misfit <;>
    simp [Fault.message, Misfit.wording, Fault.place, pathText_eq, String.append_assoc, toString]

end CTree.Tree

namespace CTree.Source
open Json (null string array object)

/-- The tree of a value is read as by the recursion over the value. -/
structure Recursive (value : Json) : Prop where
  tree : ofJson value = (Tree.readAt [] value).mapError .shape
  /-- It fails with the fault of the first value in pre-order that has one. -/
  fails (e : Error) : ofJson value = .error e ↔
    ∃ fault, Tree.firstFault (Tree.nodesAt [] value) = some fault ∧ e = .shape fault
  /-- The path of each value leads to it, so the path of a fault does. -/
  path : ∀ node ∈ Tree.nodesAt [] value, Tree.at? value node.1 = some node.2
  text (fault : Tree.Fault) : (Error.shape fault).diagnostic.text =
    "Decode error: " ++ (fault.misfit.wording.1 ++ fault.place ++ fault.misfit.wording.2)

/-- Every value is read as by the recursion. -/
theorem ofJson_recursive (value : Json) : Recursive value where
  tree := by rw [ofJson, Tree.ofJson_eq_readAt]
  fails e := by
    rw [← Tree.faultOf_readAt, ofJson, Tree.ofJson_eq_readAt]
    cases Tree.readAt [] value with
    | error fault => simp [Except.mapError, Tree.faultOf, eq_comm]
    | ok t => simp [Except.mapError, Tree.faultOf]
  path node hnode := by
    obtain ⟨way, hpath, hat⟩ := Tree.reached_of_mem value [] node hnode
    rwa [hpath]
  text fault := by
    rw [← fault.message_eq]
    rfl

example : Tree.firstFault (Tree.nodesAt []
    (object [("a", array [string "x", object [("b", null)]])])) =
      some ⟨[⟨"a", some 1⟩, ⟨"b", none⟩], .kind "null"⟩ := by rfl

end CTree.Source
