import CTree.Proofs.TreeConversion
import CTree.Proofs.WrittenDocument

/-!
# The labels of a decoded tree

The reader merges the members of an object before anything looks at their number, so
a key that is written twice hides all but its last value from the conversion to a
tree. The labels of the tree are strings of the document in the order of the text,
but they are all of them only if no object has a key twice. Then every object has
one key.
-/
namespace CTree.Tree

mutual

/-- The labels of a tree, each one in front of those below it. -/
def labels : Tree → List String
  | leaf label => [label]
  | unary label child => label :: child.labels
  | nary label children => label :: labelsOfAll children

def labelsOfAll : List Tree → List String
  | [] => []
  | t :: ts => t.labels ++ labelsOfAll ts

end

end CTree.Tree

namespace CTree.Json

/-! ## The keys of the objects -/

/-- The keys of each object that is closed in the rest of a document, behind the string `last`
and inside of objects with the keys `opened` so far, the innermost first. -/
def keysFrom (last : String) (opened : List (List String)) : List Lexeme → List (List String)
  | [] => []
  | .string s :: ls => keysFrom s opened ls
  | .mark c :: ls =>
    if c = ':' then keysFrom last (opened.modifyHead (· ++ [last])) ls
    else if c = '\x7b' then keysFrom last ([] :: opened) ls
    else if c = '\x7d' then opened.head?.toList ++ keysFrom last opened.tail ls
    else keysFrom last opened ls

/-- The keys of each object of a text, in the order in which they are written. -/
def objectKeys (text : List Char) : List (List String) := keysFrom "" [] (lexemes text)

mutual

/-- The keys of each object of a value, its members being in the order they have. -/
def keyLists : Json → List (List String)
  | null | bool _ | number _ | string _ => []
  | array items => keyListsOfItems items
  | object members => keyListsOfMembers members ++ [members.map Prod.fst]

def keyListsOfItems : List Json → List (List String)
  | [] => []
  | j :: js => j.keyLists ++ keyListsOfItems js

def keyListsOfMembers : List (String × Json) → List (List String)
  | [] => []
  | (_, j) :: members => j.keyLists ++ keyListsOfMembers members

end

mutual

theorem keysFrom_written : (w : Json) → (last : String) → (opened : List (List String)) →
    ∃ last', ∀ rest, keysFrom last opened (w.written ++ rest) =
      w.keyLists ++ keysFrom last' opened rest
  | null, last, opened | bool _, last, opened | number _, last, opened =>
    ⟨last, fun rest => by simp [written, keyLists]⟩
  | string s, last, opened => ⟨s, fun rest => by simp [written, keyLists, keysFrom]⟩
  | array items, last, opened => by
    obtain ⟨last', h⟩ := keysFrom_writtenItems items last opened
    refine ⟨last', fun rest => ?_⟩
    simp [written, keyLists, keysFrom, h]
  | object members, last, opened => by
    obtain ⟨last', h⟩ := keysFrom_writtenMembers members last [] opened
    refine ⟨last', fun rest => ?_⟩
    simp [written, keyLists, keysFrom, h]

theorem keysFrom_writtenItems : (items : List Json) → (last : String) →
    (opened : List (List String)) →
    ∃ last', ∀ rest, keysFrom last opened (writtenItems items ++ rest) =
      keyListsOfItems items ++ keysFrom last' opened rest
  | [], last, opened => ⟨last, fun rest => by simp [writtenItems, keyListsOfItems]⟩
  | j :: js, last, opened => by
    obtain ⟨mid, h⟩ := keysFrom_written j last opened
    obtain ⟨last', h'⟩ := keysFrom_writtenItems js mid opened
    refine ⟨last', fun rest => ?_⟩
    rw [writtenItems, keyListsOfItems, List.append_assoc, h, h', List.append_assoc]

theorem keysFrom_writtenMembers : (members : List (String × Json)) → (last : String) →
    (keys : List String) → (opened : List (List String)) →
    ∃ last', ∀ rest, keysFrom last (keys :: opened) (writtenMembers members ++ rest) =
      keyListsOfMembers members ++ keysFrom last' ((keys ++ members.map Prod.fst) :: opened) rest
  | [], last, keys, opened => ⟨last, fun rest => by simp [writtenMembers, keyListsOfMembers]⟩
  | (key, j) :: members, last, keys, opened => by
    obtain ⟨mid, h⟩ := keysFrom_written j key ((keys ++ [key]) :: opened)
    obtain ⟨last', h'⟩ := keysFrom_writtenMembers members mid (keys ++ [key]) opened
    refine ⟨last', fun rest => ?_⟩
    simp [writtenMembers, keyListsOfMembers, keysFrom, h, h']

end

/-! ## What merging hides -/

/-- The strings of a value, its members being in the order they have. -/
def strings (w : Json) : List String := w.written.filterMap Lexeme.literal?

def stringsOfItems (items : List Json) : List String :=
  (writtenItems items).filterMap Lexeme.literal?

def stringsOfMembers (members : List (String × Json)) : List String :=
  (writtenMembers members).filterMap Lexeme.literal?

section
variable {w v j : Json} {key s : String} {items : List Json} {members front : List (String × Json)}

@[simp] theorem filterMap_mark (c : Char) (ls : List Lexeme) :
    (.mark c :: ls).filterMap Lexeme.literal? = ls.filterMap Lexeme.literal? := rfl

@[simp] theorem filterMap_string (ls : List Lexeme) :
    (.string s :: ls).filterMap Lexeme.literal? = s :: ls.filterMap Lexeme.literal? := rfl

@[simp] theorem strings_array : (array items).strings = stringsOfItems items := by
  simp [strings, stringsOfItems, written]

@[simp] theorem strings_object : (object members).strings = stringsOfMembers members := by
  simp [strings, stringsOfMembers, written]

@[simp] theorem stringsOfItems_cons :
    stringsOfItems (w :: items) = w.strings ++ stringsOfItems items := by
  simp [strings, stringsOfItems, writtenItems]

@[simp] theorem stringsOfMembers_concat :
    stringsOfMembers (members ++ [(key, w)]) = stringsOfMembers members ++ key :: w.strings := by
  simp [strings, stringsOfMembers, writtenMembers_concat]

theorem strings_member : (object [(key, w)]).strings = key :: w.strings := by
  simp [strings, written, writtenMembers]

theorem length_le_stringsOfMembers : members.length ≤ (stringsOfMembers members).length := by
  induction members with
  | nil => rfl
  | cons m members ih =>
    have hcons : stringsOfMembers (m :: members) =
        m.1 :: (m.2.strings ++ stringsOfMembers members) := by
      simp [strings, stringsOfMembers, writtenMembers]
    rw [hcons]
    simp only [List.length_cons, List.length_append]
    omega

theorem merged_eq_string (h : w.merged = .string s) : w = .string s := by
  cases w <;> simp only [merged, reduceCtorEq] at h
  exact h

theorem exists_of_merged_eq_array {js : List Json} (h : w.merged = .array js) :
    ∃ items, w = .array items ∧ mergedItems items = js := by
  cases w <;> simp only [merged, reduceCtorEq] at h
  exact ⟨_, rfl, Json.array.inj h⟩

lemma insertMember_ne_nil (members : List (String × Json)) : insertMember key v members ≠ [] := by
  cases members with
  | nil => simp [insertMember]
  | cons m members =>
    rw [insertMember]
    split_ifs <;> simp

lemma insertMember_eq_singleton {k : String} (h : insertMember k v members = [(key, j)]) :
    k = key ∧ v = j ∧ (members = [] ∨ ∃ u, members = [(key, u)]) := by
  cases members with
  | nil =>
    obtain ⟨rfl, rfl⟩ : k = key ∧ v = j := by simpa [insertMember] using h
    exact ⟨rfl, rfl, .inl rfl⟩
  | cons m members =>
    rw [insertMember] at h
    split_ifs at h with hlt heq
    · simp at h
    · obtain ⟨⟨rfl, rfl⟩, rfl⟩ : (k = key ∧ v = j) ∧ members = [] := by simpa using h
      exact ⟨rfl, rfl, .inr ⟨m.2, by rw [heq]⟩⟩
    · exact absurd (List.cons.inj h).2 (insertMember_ne_nil members)

/-- Where one member is left, its key is that of the last member that is written, and of the
one in front of it, if there is one. -/
theorem exists_of_mergedMembers_eq_singleton (h : mergedMembers [] members = [(key, j)]) :
    ∃ front v, members = front ++ [(key, v)] ∧ v.merged = j ∧
      (front = [] ∨ ∃ front' u, front = front' ++ [(key, u)]) := by
  induction members using List.reverseRecOn generalizing j with
  | nil => simp [mergedMembers] at h
  | append_singleton front m ih =>
    obtain ⟨k, v⟩ := m
    rw [mergedMembers_concat] at h
    obtain ⟨rfl, hv, hfront⟩ := insertMember_eq_singleton h
    refine ⟨front, v, rfl, hv, ?_⟩
    rcases hfront with hnil | ⟨u, hu⟩
    · cases front using List.reverseRecOn with
      | nil => exact .inl rfl
      | append_singleton front m =>
        rw [mergedMembers_concat] at hnil
        exact absurd hnil (insertMember_ne_nil _)
    · obtain ⟨front', u', rfl, -⟩ := ih hu
      exact .inr ⟨front', u', rfl⟩

theorem exists_of_merged_eq_object (h : w.merged = .object [(key, j)]) :
    ∃ front v, w = .object (front ++ [(key, v)]) ∧ v.merged = j ∧
      (front = [] ∨ ∃ front' u, front = front' ++ [(key, u)]) := by
  cases w <;> simp only [merged, reduceCtorEq] at h
  obtain ⟨front, v, rfl, hv, hfront⟩ := exists_of_mergedMembers_eq_singleton (Json.object.inj h)
  exact ⟨front, v, rfl, hv, hfront⟩

end

/-! ## What a tree holds of a document -/

/-- The value `w` holds these labels among its strings. It holds nothing else if it has no more
strings, or no key twice, and then it is `j` as it stands. -/
structure Holds (w j : Json) (labels : List String) : Prop where
  sublist : labels.Sublist w.strings
  eq_of_length_le : w.strings.length ≤ labels.length → w = j
  eq_of_nodup : (∀ keys ∈ w.keyLists, keys.Nodup) → w = j

structure HoldsItems (items js : List Json) (labels : List String) : Prop where
  sublist : labels.Sublist (stringsOfItems items)
  eq_of_length_le : (stringsOfItems items).length ≤ labels.length → items = js
  eq_of_nodup : (∀ keys ∈ keyListsOfItems items, keys.Nodup) → items = js

theorem HoldsItems.array {items js : List Json} {labels : List String}
    (h : HoldsItems items js labels) : Holds (.array items) (.array js) labels where
  sublist := by simpa using h.sublist
  eq_of_length_le := fun hle => congrArg Json.array (h.eq_of_length_le (by simpa using hle))
  eq_of_nodup := fun hnodup => congrArg Json.array (h.eq_of_nodup hnodup)

theorem Holds.cons {w j : Json} {items js : List Json} {labels labels' : List String}
    (h : Holds w j labels) (h' : HoldsItems items js labels') :
    HoldsItems (w :: items) (j :: js) (labels ++ labels') where
  sublist := by
    rw [stringsOfItems_cons]
    exact h.sublist.append h'.sublist
  eq_of_length_le := by
    intro hle
    have hfirst := h.sublist.length_le
    have hothers := h'.sublist.length_le
    rw [stringsOfItems_cons, List.length_append, List.length_append] at hle
    rw [h.eq_of_length_le (by omega), h'.eq_of_length_le (by omega)]
  eq_of_nodup := by
    intro hnodup
    rw [keyListsOfItems, List.forall_mem_append] at hnodup
    rw [h.eq_of_nodup hnodup.1, h'.eq_of_nodup hnodup.2]

/-- An object of which one member is left. -/
theorem Holds.object {w j : Json} {key : String} {labels : List String}
    (hw : w.merged = .object [(key, j)]) (h : ∀ v : Json, v.merged = j → Holds v j labels) :
    Holds w (.object [(key, j)]) (key :: labels) := by
  obtain ⟨front, v, rfl, hv, hfront⟩ := exists_of_merged_eq_object hw
  obtain ⟨hsublist, hlength, hnodup⟩ := h v hv
  have hshort := hsublist.length_le
  have hlong : front.length ≤ (stringsOfMembers front).length := length_le_stringsOfMembers
  refine ⟨?_, fun hle => ?_, fun hkeys => ?_⟩
  · rw [strings_object, stringsOfMembers_concat]
    exact (hsublist.cons_cons key).trans (List.sublist_append_right _ _)
  · -- A member in front of the last one would bring its key along.
    simp only [strings_object, stringsOfMembers_concat, List.length_append,
      List.length_cons] at hle
    obtain rfl : front = [] := List.eq_nil_of_length_eq_zero (by omega)
    rw [hlength (by omega), List.nil_append]
  · rcases hfront with rfl | ⟨front', u, rfl⟩
    · rw [hnodup fun keys hmem => hkeys keys (by simp [keyLists, keyListsOfMembers, hmem])]
      rfl
    · have hkeys := hkeys _ (List.mem_append_right _ List.mem_cons_self)
      have htwice : (front'.map Prod.fst ++ [key, key]).Nodup := by simpa using hkeys
      exact absurd (List.nodup_append.1 htwice).2.1 (by simp)

end CTree.Json

namespace CTree.Tree
open CTree.Json

mutual

/-- A value that is merged to that of a tree holds the labels of the tree. -/
theorem holds_toJson : (t : Tree) → {w : Json} → w.merged = t.toJson →
    Holds w t.toJson t.labels
  | leaf label, w, h => by
    rw [toJson] at h
    rw [merged_eq_string h, toJson, labels]
    exact ⟨List.Sublist.refl _, fun _ => rfl, fun _ => rfl⟩
  | unary label child, w, h => by
    rw [toJson] at h ⊢
    exact .object h fun v hv => holds_toJson child hv
  | nary label children, w, h => by
    rw [toJson] at h ⊢
    refine .object h fun v hv => ?_
    obtain ⟨items, rfl, hitems⟩ := exists_of_merged_eq_array hv
    exact (holdsItems_toJsonAll children hitems).array

theorem holdsItems_toJsonAll : (ts : List Tree) → {items : List Json} →
    mergedItems items = toJsonAll ts → HoldsItems items (toJsonAll ts) (labelsOfAll ts)
  | [], items, h => by
    cases items with
    | nil => exact ⟨List.nil_sublist _, fun _ => rfl, fun _ => rfl⟩
    | cons j js => simp [mergedItems, toJsonAll] at h
  | t :: ts, items, h => by
    cases items with
    | nil => simp [mergedItems, toJsonAll] at h
    | cons j js =>
      rw [mergedItems, toJsonAll] at h
      obtain ⟨hfirst, hothers⟩ := List.cons.inj h
      exact (holds_toJson t hfirst).cons (holdsItems_toJsonAll ts hothers)

end

mutual

theorem strings_toJson : (t : Tree) → t.toJson.strings = t.labels
  | leaf label => rfl
  | unary label child => by rw [toJson, strings_member, strings_toJson child, labels]
  | nary label children => by
    rw [toJson, strings_member, strings_array, stringsOfItems_toJsonAll children, labels]

theorem stringsOfItems_toJsonAll : (ts : List Tree) →
    stringsOfItems (toJsonAll ts) = labelsOfAll ts
  | [] => rfl
  | t :: ts => by
    rw [toJsonAll, stringsOfItems_cons, strings_toJson t, stringsOfItems_toJsonAll ts,
      labelsOfAll]

end

mutual

/-- Each object of a tree has one key. -/
theorem length_of_mem_keyLists : (t : Tree) → {keys : List String} →
    keys ∈ t.toJson.keyLists → keys.length = 1
  | leaf label, keys, h => by cases h
  | unary label child, keys, h => by
    rw [toJson] at h
    rcases List.mem_append.1 h with h | h
    · exact length_of_mem_keyLists child (by simpa [keyListsOfMembers] using h)
    · rw [List.mem_singleton.1 h]
      rfl
  | nary label children, keys, h => by
    rw [toJson] at h
    rcases List.mem_append.1 h with h | h
    · exact length_of_mem_keyListsOfItems children
        (by simpa [keyListsOfMembers, keyLists] using h)
    · rw [List.mem_singleton.1 h]
      rfl

theorem length_of_mem_keyListsOfItems : (ts : List Tree) → {keys : List String} →
    keys ∈ keyListsOfItems (toJsonAll ts) → keys.length = 1
  | [], keys, h => by cases h
  | t :: ts, keys, h => by
    rw [toJsonAll, keyListsOfItems] at h
    rcases List.mem_append.1 h with h | h
    · exact length_of_mem_keyLists t h
    · exact length_of_mem_keyListsOfItems ts h

end

end CTree.Tree

namespace CTree.Source
open CTree.Json

/-- The labels of a decoded tree, each one in front of those below it, stand among the strings
of the document in the order of the text. They are all of these strings exactly if no object
of the document has a key twice, and then every object has one key. -/
theorem labels_of_decode {text : String} {tree : Tree} (h : decode text = .ok tree) :
    tree.labels.Sublist (literals text.toList) ∧
    (literals text.toList = tree.labels ↔ ∀ keys ∈ objectKeys text.toList, keys.Nodup) ∧
    ((∀ keys ∈ objectKeys text.toList, keys.Nodup) →
      ∀ keys ∈ objectKeys text.toList, keys.length = 1) := by
  obtain ⟨hread, -, -⟩ := decode_eq_ok_iff.1 h
  obtain ⟨w, hw, hlexemes⟩ : ∃ w : Json, w.merged = tree.toJson ∧
      lexemes text.toList = w.written := by
    rw [readJson] at hread
    cases hjson : read text.toList with
    | error fault => rw [hjson] at hread; cases hread
    | ok j =>
      rw [hjson] at hread
      obtain rfl := Except.ok.inj hread
      exact exists_written_of_read hjson
  have hliterals : literals text.toList = w.strings := congrArg _ hlexemes
  have hkeys : objectKeys text.toList = w.keyLists := by
    obtain ⟨last, hfrom⟩ := keysFrom_written w "" []
    have hall := hfrom []
    rwa [List.append_nil, ← hlexemes, keysFrom, List.append_nil] at hall
  obtain ⟨hsublist, hlength, hnodup⟩ := tree.holds_toJson hw
  rw [hliterals, hkeys]
  refine ⟨hsublist, ⟨fun heq keys hmem => ?_, fun hall => ?_⟩, fun hall keys hmem => ?_⟩
  · obtain rfl := hlength (by rw [heq])
    have hone := tree.length_of_mem_keyLists hmem
    obtain ⟨key, rfl⟩ := List.length_eq_one_iff.1 hone
    exact List.nodup_singleton key
  · rw [hnodup hall, tree.strings_toJson]
  · rw [hnodup hall] at hmem
    exact tree.length_of_mem_keyLists hmem

theorem labels_of_decode_escaped :
    decode "\x7b\"a\\u0062\":[\"\\n\", \"\"]\x7d" = .ok (.nary "ab" [.leaf "\n", .leaf ""]) ∧
    literals "\x7b\"a\\u0062\":[\"\\n\", \"\"]\x7d".toList = ["ab", "\n", ""] ∧
    ∀ keys ∈ objectKeys "\x7b\"a\\u0062\":[\"\\n\", \"\"]\x7d".toList, keys.length = 1 := by
  have hdecode : decode "\x7b\"a\\u0062\":[\"\\n\", \"\"]\x7d" =
      .ok (.nary "ab" [.leaf "\n", .leaf ""]) :=
    eq_ok_of_toOption (by decide +kernel)
  have hkeys : objectKeys "\x7b\"a\\u0062\":[\"\\n\", \"\"]\x7d".toList = [["ab"]] := by
    decide +kernel
  obtain ⟨-, hliterals, hone⟩ := labels_of_decode hdecode
  have hnodup : ∀ keys ∈ [["ab"]], keys.Nodup := by decide
  rw [← hkeys] at hnodup
  exact ⟨hdecode, hliterals.2 hnodup, hone hnodup⟩

/-- A document with a key that is written twice is accepted, and a value is lost. -/
theorem repeated_key_accepted :
    decode "\x7b\"a\":\"x\",\"a\":\"y\"\x7d" = .ok (.unary "a" (.leaf "y")) ∧
    objectKeys "\x7b\"a\":\"x\",\"a\":\"y\"\x7d".toList = [["a", "a"]] ∧
    literals "\x7b\"a\":\"x\",\"a\":\"y\"\x7d".toList ≠ (Tree.unary "a" (.leaf "y")).labels :=
  ⟨eq_ok_of_toOption (by decide +kernel), by decide +kernel, by decide +kernel⟩

end CTree.Source
