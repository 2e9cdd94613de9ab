import CTree.Source
import Mathlib.Tactic

/-!
# Which values are trees

`Tree.ofJson` opens the values of a document one by one and keeps the nodes it has
entered in a list. It accepts the value of a tree whose nodes are of the three
forms and which is not too deep, gives that tree back, and accepts nothing else. A
tree is therefore read exactly where it can be written.
-/
namespace CTree.Tree

mutual

/-- Whether each node that is written over an array has several children. -/
def wellFormed : Tree → Bool
  | leaf _ => true
  | unary _ child => child.wellFormed
  | nary _ children => decide (2 ≤ children.length) && wellFormedAll children

def wellFormedAll : List Tree → Bool
  | [] => true
  | t :: ts => t.wellFormed && wellFormedAll ts

end

/-! ## The value of a tree -/

theorem toJson_ne_array (t : Tree) (items : List Json) : t.toJson ≠ .array items := by
  cases t <;> simp [toJson]

mutual

theorem toJson_inj : {t u : Tree} → t.toJson = u.toJson → t = u
  | leaf a, leaf b, h => by simpa [toJson] using h
  | leaf _, unary .., h | leaf _, nary .., h => by simp [toJson] at h
  | unary .., leaf _, h | nary .., leaf _, h => by simp [toJson] at h
  | unary a t, unary b u, h => by
    obtain ⟨rfl, hchild⟩ : a = b ∧ t.toJson = u.toJson := by simpa [toJson] using h
    rw [toJson_inj hchild]
  | unary a t, nary b us, h => by
    simp only [toJson, Json.object.injEq, List.cons.injEq, Prod.mk.injEq, and_true] at h
    exact absurd h.2 (toJson_ne_array _ _)
  | nary a ts, unary b u, h => by
    simp only [toJson, Json.object.injEq, List.cons.injEq, Prod.mk.injEq, and_true] at h
    exact absurd h.2.symm (toJson_ne_array _ _)
  | nary a ts, nary b us, h => by
    obtain ⟨rfl, hchildren⟩ : a = b ∧ toJsonAll ts = toJsonAll us := by simpa [toJson] using h
    rw [toJsonAll_inj hchildren]

theorem toJsonAll_inj : {ts us : List Tree} → toJsonAll ts = toJsonAll us → ts = us
  | [], [], _ => rfl
  | [], _ :: _, h | _ :: _, [], h => by simp [toJsonAll] at h
  | t :: ts, u :: us, h => by
    obtain ⟨hhead, htail⟩ : t.toJson = u.toJson ∧ toJsonAll ts = toJsonAll us := by
      simpa [toJsonAll] using h
    rw [toJson_inj hhead, toJsonAll_inj htail]

end

mutual

/-- A tree is written as its value is. -/
theorem write_eq (layout : Json.Layout) : (level : Nat) → (t : Tree) → (out : String) →
    t.write layout level out = t.toJson.write layout level out
  | _, leaf label, _ => by rw [write, toJson, Json.write]
  | level, unary label child, out => by
    rw [write, write_eq layout, closeNode, openNode, toJson, Json.write, Json.writeMembers]
  | level, nary label children, out => by
    rw [write, writeArray_eq layout, closeNode, openNode, toJson, Json.write, Json.writeMembers]

theorem writeArray_eq (layout : Json.Layout) : (level : Nat) → (ts : List Tree) →
    (out : String) →
    writeArray layout level ts out = (Json.array (toJsonAll ts)).write layout level out
  | _, [], _ => by rw [writeArray, toJsonAll, Json.write]
  | level, t :: ts, out => by
    rw [writeArray, toJsonAll, Json.write, write_eq layout, writeOthers_eq layout]

theorem writeOthers_eq (layout : Json.Layout) : (level : Nat) → (ts : List Tree) →
    (out : String) →
    writeOthers layout level ts out = Json.writeItems layout level (toJsonAll ts) out
  | _, [], _ => by rw [writeOthers, toJsonAll, Json.writeItems]
  | level, t :: ts, out => by
    rw [writeOthers, writeOthers_eq layout, write_eq layout, toJsonAll, Json.writeItems]

end

/-- A value that opens as a node is an object of one member. Its value is the array of the
children where there are several, and the child itself otherwise. -/
theorem Opened.ofJson_eq_node {j first : Json} {label : String} {several : Bool}
    {others : List Json} (h : Opened.ofJson j = .ok (.node label several first others)) :
    several = true ∧ others ≠ [] ∧ j = .object [(label, .array (first :: others))] ∨
      several = false ∧ others = [] ∧ j = .object [(label, first)] := by
  unfold Opened.ofJson at h
  split at h
  · simp at h
  · obtain ⟨rfl, rfl, rfl, rfl⟩ := by simpa using h
    exact .inl ⟨rfl, List.cons_ne_nil _ _, rfl⟩
  · simp at h
  · obtain ⟨rfl, rfl, rfl, rfl⟩ := by simpa using h
    exact .inr ⟨rfl, rfl, rfl⟩
  · simp at h
  · simp at h

theorem Opened.ofJson_eq_leaf {j : Json} {label : String}
    (h : Opened.ofJson j = .ok (.leaf label)) : j = .string label := by
  unfold Opened.ofJson at h
  split at h <;> simp at h
  rw [h]

theorem Opened.ofJson_unary (label : String) (child : Tree) :
    Opened.ofJson (unary label child).toJson = .ok (.node label false child.toJson []) := by
  cases child <;> rfl

/-! ## One turn of the conversion -/

section
variable {stack : List Frame} {label : String}

theorem convert_leaf :
    convert (.value (.string label)) stack = convert (.tree (leaf label)) stack := by
  rw [convert]
  rfl

theorem convert_node {j first : Json} {several : Bool} {others : List Json}
    (h : Opened.ofJson j = .ok (.node label several first others)) :
    convert (.value j) stack =
      if stack.length < maxDepth then
        convert (.value first) (⟨label, several, others, []⟩ :: stack)
      else .error ⟨pathOf stack, .tooDeep⟩ := by
  rw [convert]
  split
  · simp [h] at *
  · simp [h] at *
  · rename_i h'
    obtain ⟨rfl, rfl, rfl, rfl⟩ := by simpa [h] using h'
    rfl

theorem convert_fault {j : Json} {misfit : Misfit} (h : Opened.ofJson j = .error misfit) :
    convert (.value j) stack = .error ⟨pathOf stack, misfit⟩ := by
  rw [convert]
  split
  · rename_i h'
    obtain rfl := by simpa [h] using h'
    rfl
  · simp [h] at *
  · simp [h] at *

theorem convert_done (t : Tree) : convert (.tree t) [] = .ok t := by rw [convert]

theorem convert_next (t : Tree) (several : Bool) (child : Json) (pending : List Json)
    (done : List Tree) :
    convert (.tree t) (⟨label, several, child :: pending, done⟩ :: stack) =
      convert (.value child) (⟨label, several, pending, t :: done⟩ :: stack) := by
  conv_lhs => rw [convert]

theorem convert_close (t : Tree) (several : Bool) (done : List Tree) :
    convert (.tree t) (⟨label, several, [], done⟩ :: stack) =
      convert (.tree (Frame.close ⟨label, several, [], done⟩ t)) stack := by
  rw [convert]

end

/-! ## Every tree that is not too deep is read back -/

mutual

/-- Once the value of a tree is read, the tree is at hand. -/
theorem convert_toJson : (t : Tree) → (stack : List Frame) → t.wellFormed = true →
    stack.length + t.depth ≤ maxDepth →
    convert (.value t.toJson) stack = convert (.tree t) stack
  | leaf label, stack, _, _ => convert_leaf
  | unary label child, stack, hwell, hdepth => by
    rw [wellFormed] at hwell
    rw [depth] at hdepth
    have hlt : stack.length < maxDepth := by omega
    have hchild := convert_toJson child (⟨label, false, [], []⟩ :: stack) hwell
      (by rw [List.length_cons]; omega)
    rw [convert_node (Opened.ofJson_unary label child), if_pos hlt, hchild, convert_close]
    rfl
  | nary label [], _, hwell, _ | nary label [_], _, hwell, _ => by simp [wellFormed] at hwell
  | nary label (t :: u :: ts), stack, hwell, hdepth => by
    simp only [wellFormed, Bool.and_eq_true] at hwell
    obtain ⟨-, hwell⟩ := hwell
    simp only [wellFormedAll, Bool.and_eq_true] at hwell
    simp only [depth, depthBelow] at hdepth
    have hlt : stack.length < maxDepth := by omega
    have hfirst := convert_toJson t (⟨label, true, toJsonAll (u :: ts), []⟩ :: stack) hwell.1
      (by rw [List.length_cons]; omega)
    have hothers := convert_toJsonAll (u :: ts) stack label [] t
      (by simpa [wellFormedAll] using hwell.2) hlt (by simp only [depthBelow]; omega)
    have hopen : Opened.ofJson (nary label (t :: u :: ts)).toJson =
        .ok (.node label true t.toJson (toJsonAll (u :: ts))) := rfl
    rw [convert_node hopen, if_pos hlt, hfirst, hothers]
    rfl

/-- The further children of a node are read one after the other. -/
theorem convert_toJsonAll : (ts : List Tree) → (stack : List Frame) → (label : String) →
    (done : List Tree) → (t : Tree) → wellFormedAll ts = true → stack.length < maxDepth →
    stack.length + depthBelow ts ≤ maxDepth →
    convert (.tree t) (⟨label, true, toJsonAll ts, done⟩ :: stack) =
      convert (.tree (nary label (done.reverse ++ t :: ts))) stack
  | [], stack, label, done, t, _, _, _ => by
    rw [toJsonAll, convert_close]
    simp [Frame.close]
  | u :: ts, stack, label, done, t, hwell, hlt, hdepth => by
    simp only [wellFormedAll, Bool.and_eq_true] at hwell
    rw [depthBelow] at hdepth
    have hchild := convert_toJson u (⟨label, true, toJsonAll ts, t :: done⟩ :: stack) hwell.1
      (by rw [List.length_cons]; omega)
    have hothers := convert_toJsonAll ts stack label (t :: done) u hwell.2 hlt (by omega)
    rw [toJsonAll, convert_next, hchild, hothers]
    simp

end

/-! ## Nothing else is read -/

/-- What a value has to be for its conversion to come to a result. -/
def IsTree (j : Json) (stack : List Frame) (t : Tree) : Prop :=
  j = t.toJson ∧ t.wellFormed = true ∧ stack.length + t.depth ≤ maxDepth

/-- The pending children of a node are trees, if the conversion goes on to a result. -/
lemma isTree_pending {pending : List Json} {stack : List Frame} {label : String}
    {done : List Tree} {t r : Tree} (hlt : stack.length < maxDepth)
    (hread : ∀ j ∈ pending, ∀ (stack : List Frame) (r : Tree), stack.length ≤ maxDepth →
      convert (.value j) stack = .ok r →
      ∃ t, IsTree j stack t ∧ convert (.tree t) stack = .ok r)
    (h : convert (.tree t) (⟨label, true, pending, done⟩ :: stack) = .ok r) :
    ∃ ts, pending = toJsonAll ts ∧ wellFormedAll ts = true ∧
      stack.length + depthBelow ts ≤ maxDepth ∧
      convert (.tree (nary label (done.reverse ++ t :: ts))) stack = .ok r := by
  induction pending generalizing done t with
  | nil =>
    rw [convert_close] at h
    refine ⟨[], rfl, rfl, by rw [depthBelow]; omega, ?_⟩
    simpa [Frame.close] using h
  | cons j pending ih =>
    rw [convert_next] at h
    obtain ⟨u, ⟨hj, hwell, hdepth⟩, hu⟩ := hread j List.mem_cons_self _ r (by exact hlt) h
    obtain ⟨ts, hts, hwells, hdepths, hgo⟩ :=
      ih (fun j hj => hread j (List.mem_cons_of_mem _ hj)) hu
    rw [List.length_cons] at hdepth
    refine ⟨u :: ts, by rw [toJsonAll, hj, hts], ?_, ?_, ?_⟩
    · rw [wellFormedAll, hwell, hwells]
      rfl
    · rw [depthBelow]
      omega
    · simpa using hgo

lemma jsonSize_lt_of_mem {j : Json} {items : List Json} (h : j ∈ items) :
    jsonSize j ≤ jsonSizeItems items := by
  induction items with
  | nil => cases h
  | cons i items ih =>
    rw [jsonSizeItems]
    rcases List.mem_cons.1 h with rfl | h
    · exact Nat.le_add_right _ _
    · exact (ih h).trans (Nat.le_add_left _ _)

theorem isTree_of_convert {j : Json} {stack : List Frame} {r : Tree}
    (hlevel : stack.length ≤ maxDepth) (h : convert (.value j) stack = .ok r) :
    ∃ t, IsTree j stack t ∧ convert (.tree t) stack = .ok r := by
  induction hsize : jsonSize j using Nat.strongRecOn generalizing j stack r with
  | ind size ih =>
    cases hopen : Opened.ofJson j with
    | error misfit =>
      rw [convert_fault hopen] at h
      cases h
    | ok opened =>
      cases opened with
      | leaf label =>
        obtain rfl := Opened.ofJson_eq_leaf hopen
        rw [convert_leaf] at h
        exact ⟨leaf label, ⟨rfl, rfl, hlevel⟩, h⟩
      | node label several first others =>
        have hsmaller := jsonSize_opened hopen
        rw [convert_node hopen] at h
        split at h
        · rename_i hlt
          obtain ⟨t, ⟨hfirst, hwell, hdepth⟩, hgo⟩ := ih _ (by omega) (by exact hlt) h rfl
          rw [List.length_cons] at hdepth
          rcases Opened.ofJson_eq_node hopen with ⟨rfl, hne, rfl⟩ | ⟨rfl, rfl, rfl⟩
          · obtain ⟨ts, hts, hwells, hdepths, hgo⟩ := isTree_pending hlt
              (fun j hj stack r hlevel h => ih _ (by
                have := jsonSize_lt_of_mem hj
                omega) hlevel h rfl) hgo
            refine ⟨nary label (t :: ts), ⟨by rw [toJson, toJsonAll, hfirst, hts], ?_, ?_⟩,
              by simpa using hgo⟩
            · have hmany : ts ≠ [] := by
                rintro rfl
                exact hne hts
              have hpos := List.length_pos_iff.2 hmany
              simp only [wellFormed, wellFormedAll, hwell, hwells, List.length_cons,
                Bool.and_true, decide_eq_true_eq]
              omega
            · rw [depth, depthBelow]
              omega
          · rw [convert_close] at hgo
            exact ⟨unary label t, ⟨by rw [toJson, hfirst], hwell, by rw [depth]; omega⟩, hgo⟩
        · cases h

/-- The values that are read are those of trees that are not too deep. -/
theorem ofJson_eq_ok_iff {j : Json} {t : Tree} :
    ofJson j = .ok t ↔ j = t.toJson ∧ t.wellFormed = true ∧ t.depth ≤ maxDepth := by
  constructor
  · intro h
    obtain ⟨u, ⟨hj, hwell, hdepth⟩, hgo⟩ := isTree_of_convert (Nat.zero_le _) h
    obtain rfl : u = t := by simpa [convert_done] using hgo
    exact ⟨hj, hwell, by simpa using hdepth⟩
  · rintro ⟨rfl, hwell, hdepth⟩
    rw [ofJson, convert_toJson t [] hwell (by simpa using hdepth), convert_done]

end CTree.Tree

namespace CTree.Source
open CTree.Tree (maxDepth)

theorem ofJson_eq_ok_iff {j : Json} {tree : Tree} :
    ofJson j = .ok tree ↔
      j = tree.toJson ∧ tree.wellFormed = true ∧ tree.depth ≤ maxDepth := by
  rw [← Tree.ofJson_eq_ok_iff, ofJson]
  cases Tree.ofJson j <;> simp [Except.mapError]

theorem kind_ofJson {j : Json} {e : Error} (h : ofJson j = .error e) :
    e.diagnostic.kind = .decode := by
  rw [ofJson] at h
  cases hj : Tree.ofJson j with
  | ok tree => simp [hj, Except.mapError] at h
  | error fault =>
    obtain rfl := by simpa [hj, Except.mapError, eq_comm] using h
    rfl

theorem kind_readJson {text : String} {e : Error} (h : readJson text = .error e) :
    e.diagnostic.kind = .decode := by
  rw [readJson] at h
  cases hj : Json.read text.toList with
  | ok j => simp [hj, Except.mapError] at h
  | error fault =>
    obtain rfl := by simpa [hj, Except.mapError, eq_comm] using h
    rfl

theorem encode_eq_ok_iff {layout : Json.Layout} {tree : Tree} {document : String} :
    encode layout tree = .ok document ↔
      tree.depth ≤ maxDepth ∧ tree.toJson.render layout = document := by
  by_cases h : maxDepth < tree.depth
  · simp [encode, Tree.encode, h, Except.mapError]
  · simp [encode, Tree.encode, h, Except.mapError, Nat.le_of_not_lt h, Tree.write_eq,
      Json.render]

theorem encode_eq_error_iff {layout : Json.Layout} {tree : Tree} {e : Error} :
    encode layout tree = .error e ↔ maxDepth < tree.depth ∧ e = .tooDeep tree.depth := by
  by_cases h : maxDepth < tree.depth
  · simp [encode, Tree.encode, h, Except.mapError, eq_comm]
  · simp [encode, Tree.encode, h, Except.mapError]

theorem decode_eq_ok_iff {text : String} {tree : Tree} :
    decode text = .ok tree ↔
      readJson text = .ok tree.toJson ∧ tree.wellFormed = true ∧ tree.depth ≤ maxDepth := by
  rw [decode]
  cases hj : readJson text with
  | error e => simp [bind, Except.bind]
  | ok j =>
    simp only [bind, Except.bind, Except.ok.injEq]
    exact ofJson_eq_ok_iff

theorem eq_ok_of_toOption {E A : Type} {result : Except E A} {a : A}
    (h : result.toOption = some a) : result = .ok a := by
  cases result with
  | error e => cases h
  | ok b => exact congrArg Except.ok (Option.some.inj h)

theorem kind_decode {text : String} {e : Error} (h : decode text = .error e) :
    e.diagnostic.kind = .decode := by
  rw [decode] at h
  cases hj : readJson text with
  | error e' =>
    rw [hj] at h
    obtain rfl := Except.error.inj h
    exact kind_readJson hj
  | ok j =>
    rw [hj] at h
    exact kind_ofJson h

/-- A document is read as a tree if it is the value of one that can be written, and the two
limits on the depth are the same. -/
theorem decode_accepts_encodable :
    (∀ text tree, decode text = .ok tree ↔
      readJson text = .ok tree.toJson ∧ tree.wellFormed = true ∧ tree.depth ≤ maxDepth) ∧
    (∀ text e, decode text = .error e → e.diagnostic.kind = .decode) ∧
    (∀ text tree, decode text = .ok tree →
      ∀ layout, ∃ document, encode layout tree = .ok document) ∧
    ∀ tree : Tree, tree.wellFormed = true → ∀ layout,
      ((∃ document, encode layout tree = .ok document) → ofJson tree.toJson = .ok tree) ∧
      ((∃ e, ofJson tree.toJson = .error e ∧ e.diagnostic.kind = .decode) ↔
        ∃ e, encode layout tree = .error e ∧ e.diagnostic.kind = .internal) := by
  refine ⟨fun text tree => decode_eq_ok_iff, fun text e => kind_decode, ?_, ?_⟩
  · intro text tree h layout
    obtain ⟨-, -, hdepth⟩ := decode_eq_ok_iff.1 h
    exact ⟨_, encode_eq_ok_iff.2 ⟨hdepth, rfl⟩⟩
  · intro tree hwell layout
    refine ⟨?_, ?_, ?_⟩
    · rintro ⟨document, h⟩
      have hdepth := (encode_eq_ok_iff.1 h).1
      exact ofJson_eq_ok_iff.2 ⟨rfl, hwell, hdepth⟩
    · rintro ⟨e, h, -⟩
      have hdeep : maxDepth < tree.depth := by
        by_contra hdepth
        rw [ofJson_eq_ok_iff.2 ⟨rfl, hwell, Nat.le_of_not_lt hdepth⟩] at h
        cases h
      exact ⟨_, encode_eq_error_iff.2 ⟨hdeep, rfl⟩, rfl⟩
    · rintro ⟨e, h, -⟩
      have hdeep := (encode_eq_error_iff.1 h).1
      cases hj : ofJson tree.toJson with
      | error e' => exact ⟨e', rfl, kind_ofJson hj⟩
      | ok other =>
        obtain ⟨hjson, -, hdepth⟩ := ofJson_eq_ok_iff.1 hj
        rw [Tree.toJson_inj hjson] at hdeep
        omega

theorem decode_accepts_encodable_unary :
    decode "\x7b\"a\":\"b\"\x7d" = .ok (.unary "a" (.leaf "b")) ∧
    ∀ layout, ofJson (Tree.unary "a" (.leaf "b")).toJson = .ok (.unary "a" (.leaf "b")) ∧
      ∃ document, encode layout (.unary "a" (.leaf "b")) = .ok document := by
  obtain ⟨hdecode, -, hencode, hdepth⟩ := decode_accepts_encodable
  have hread : decode "\x7b\"a\":\"b\"\x7d" = .ok (.unary "a" (.leaf "b")) :=
    (hdecode _ _).2 ⟨by cbv, by decide, by decide⟩
  refine ⟨hread, fun layout => ⟨(hdepth _ (by decide) layout).1 ?_, ?_⟩⟩
  · exact hencode _ _ hread layout
  · exact hencode _ _ hread layout

end CTree.Source
