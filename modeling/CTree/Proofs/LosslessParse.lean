import CTree.Source
import CTree.Proofs.Adequacy
import CTree.Proofs.NodeSpans
import CTree.Proofs.RoseTree

/-!
# No text is lost

The words of a parse tree are its nodes without children, but for the mark at the
end. With gaps in front of, between and behind them they are the source. Nothing
that was read in an alternative given up later, or looked at ahead, is among them.
-/
namespace CTree.Parse
open CTree.Grammar CTree.Lexical CTree.Text

/-- A token with its text and the byte offset where it starts. -/
structure Leaf where
  token : Token
  start : Nat
  text : List Char

def Leaf.node (leaf : Leaf) : Node := .leaf leaf.token leaf.start leaf.text

/-- The text from a byte offset on consists of the words with gaps in front of,
between and behind them. -/
inductive Woven : Nat → List Leaf → List Char → Prop
  | done {offset gap} : Gap gap [] → Woven offset [] gap
  | word {offset gap t text rest words} : Gap gap (text ++ rest) → t ≠ .endOfInput →
      t.width? (text ++ rest) = some text.length →
      Woven (offset + byteCount gap + byteCount text) words rest →
      Woven offset (⟨t, offset + byteCount gap, text⟩ :: words) (gap ++ (text ++ rest))

/-- A gap in front of a text goes to its first gap. -/
theorem Woven.skip {offset : Nat} {gap rest : List Char} {words : List Leaf}
    (hgap : Gap gap rest) (h : Woven (offset + byteCount gap) words rest) :
    Woven offset words (gap ++ rest) := by
  generalize ho : offset + byteCount gap = o at h
  cases h with
  | done hlast => exact .done (Gap.append (by simpa using hgap) (by simpa using hlast))
  | word hfirst ht hwidth hrest =>
    subst ho
    rename_i gap' t text rest words
    rw [← List.append_assoc, Nat.add_assoc offset, ← byteCount_append]
    refine .word (hgap.append hfirst) ht hwidth ?_
    rwa [byteCount_append, ← Nat.add_assoc offset]

/-- Going from one place to another over words and gaps. -/
inductive Passes : Cursor → List Leaf → Cursor → Prop
  | stay {here} : Passes here [] here
  | skip {here words stop} : Passes (skipGap here) words stop → Passes here words stop
  | word {here t n words stop} : gapWidth here.rest = 0 → t ≠ .endOfInput →
      t.width? here.rest = some n → Passes (here.advance n) words stop →
      Passes here (⟨t, here.offset, here.rest.take n⟩ :: words) stop

theorem Passes.trans {a b c : Cursor} {words more : List Leaf} (h : Passes a words b)
    (h' : Passes b more c) : Passes a (words ++ more) c := by
  induction h with
  | stay => exact h'
  | skip _ ih => exact .skip (ih h')
  | word hgap ht hn _ ih => exact .word hgap ht hn (ih h')

theorem Passes.woven {here stop : Cursor} {words : List Leaf} (h : Passes here words stop)
    (hstop : stop.rest = []) : Woven here.offset words here.rest := by
  induction h with
  | stay =>
    rw [hstop]
    exact .done .nil
  | @skip here words _ _ ih =>
    have hrest := ih hstop
    have hgap := gap_take_gapWidth here.rest
    simp only [skipGap, Cursor.advance_rest, Cursor.advance_offset] at hrest
    have hwoven := hrest.skip hgap
    rwa [List.take_append_drop] at hwoven
  | @word here t n words _ _ ht hn _ ih =>
    have hrest := ih hstop
    rw [Cursor.advance_offset, Cursor.advance_rest] at hrest
    have hword : Woven here.offset (⟨t, here.offset, here.rest.take n⟩ :: words)
        ([] ++ (here.rest.take n ++ here.rest.drop n)) :=
      .word .nil ht (Pattern.width?_take_append_drop hn) hrest
    rwa [List.nil_append, List.take_append_drop] at hword

/-! ## The words of what was read -/

/-- The nodes without children, from left to right. -/
def Node.tips (nodes : List Node) : List Node :=
  (Node.preorderAll nodes).filter (·.children.isEmpty)

theorem Node.tips_append (ns ms : List Node) : tips (ns ++ ms) = tips ns ++ tips ms := by
  rw [tips, preorderAll_append, List.filter_append, tips, tips]

theorem Node.tips_branch {r : Rule} {start stop : Nat} {nodes : List Node} (h : nodes ≠ []) :
    tips [.branch r start stop nodes] = tips nodes := by
  simp [tips, preorder, children, h]

/-- What was read is a row of words, and its nodes without children are these. -/
theorem Reads.passes {goal : Goal} {here stop : Cursor} {nodes : List Node}
    (h : Reads goal here (some (nodes, stop))) (hin : goal.expr.inner = true)
    (hready : goal.Ready here) :
    ∃ words, Node.tips nodes = words.map Leaf.node ∧ Passes here words stop := by
  induction h using Reads.match_induction with
  | nothing | noOpt | noMany | ahead | enough => exact ⟨[], rfl, .stay⟩
  | token t here n hn =>
    have ht := Expr.inner_token_iff.1 hin
    refine ⟨[⟨t, here.offset, here.rest.take n⟩], ?_, .word hready ht hn .stay⟩
    simp [Node.tips, Node.preorder, Node.children, Leaf.node]
  | rule r here nodes stop h ih =>
    have hr := Expr.inner_rule_iff.1 hin
    rw [Node.tips_branch h.ne_nil_of_rule]
    exact ih (Rule.inner_body hr) hready
  | first e f _ _ _ _ ih =>
    simp only [Goal.expr, Expr.inner, Expr.all, Bool.and_eq_true] at hin
    exact ih hin.1 hready
  | second e f _ _ _ _ _ ih =>
    simp only [Goal.expr, Expr.inner, Expr.all, Bool.and_eq_true] at hin
    exact ih hin.2 hready
  | opt _ _ _ _ _ ih => exact ih hin hready
  | seq e f here nodes mid more stop _ _ ih ih' =>
    simp only [Goal.expr, Expr.inner, Expr.all, Bool.and_eq_true] at hin
    obtain ⟨words, hwords, hpass⟩ := ih hin.1 hready
    obtain ⟨last, hlast, hpass'⟩ := ih' hin.2 (gapWidth_skipGap mid)
    refine ⟨words ++ last, ?_, hpass.trans (.skip hpass')⟩
    rw [Node.tips_append, hwords, hlast, List.map_append]
  | many e here nodes mid more stop _ _ ih ih' =>
    obtain ⟨words, hwords, hpass⟩ := ih hin hready
    obtain ⟨last, hlast, hpass'⟩ := ih' hin trivial
    refine ⟨words ++ last, ?_, hpass.trans hpass'⟩
    rw [Node.tips_append, hwords, hlast, List.map_append]
  | again e here nodes mid more stop _ _ ih ih' =>
    obtain ⟨words, hwords, hpass⟩ := ih hin (gapWidth_skipGap here)
    obtain ⟨last, hlast, hpass'⟩ := ih' hin trivial
    refine ⟨words ++ last, ?_, .skip (hpass.trans hpass')⟩
    rw [Node.tips_append, hwords, hlast, List.map_append]

/-! ## Whole sources -/

theorem Node.label_toRose {t : Token} {start : Nat} {text : List Char} (ht : t ≠ .endOfInput)
    (htext : text ≠ []) : (leaf t start text).toRose.label = String.ofList text := by
  cases text with
  | nil => exact absurd rfl htext
  | cons c s => cases t <;> first | rfl | exact absurd rfl ht

mutual

/-- The leaves of the tree are the labels of the nodes without children. -/
theorem Node.leaves_toRose : (n : Node) → n.toRose.leaves = (tips [n]).map (·.toRose.label)
  | leaf t start text => by
    have htip : tips [leaf t start text] = [leaf t start text] := by
      simp [tips, preorder, children]
    rw [htip]
    cases t <;> cases text <;> rfl
  | branch r start stop [] => by
    simp [tips, preorder, preorderAll, children, toRose, toRoses, Rose.leaves, Rose.label]
  | branch r start stop (n :: ns) => by
    rw [tips_branch (List.cons_ne_nil n ns), ← leavesOf_toRoses (n :: ns)]
    rfl

theorem Node.leavesOf_toRoses : (ns : List Node) →
    Rose.leavesOf (toRoses ns) = (tips ns).map (·.toRose.label)
  | [] => rfl
  | n :: ns => by
    have hsplit := tips_append [n] ns
    rw [List.singleton_append] at hsplit
    rw [hsplit, List.map_append, ← leaves_toRose n, ← leavesOf_toRoses ns]
    rfl

end

theorem Woven.labels {offset : Nat} {words : List Leaf} {source : List Char}
    (h : Woven offset words source) :
    words.map (·.node.toRose.label) = words.map (String.ofList ·.text) := by
  induction h with
  | done => rfl
  | @word offset gap t text rest words _ ht hwidth _ ih =>
    have hpos := consuming_pattern ht _ _ hwidth
    rw [List.map_cons, List.map_cons, ih]
    exact congrArg (· :: _) (Node.label_toRose ht (List.length_pos_iff.1 hpos))

theorem exists_ok_of_map {E A B : Type} {result : Except E A} {f : A → B} {b : B}
    (h : result.toOption.map f = some b) : ∃ a, result = .ok a ∧ f a = b := by
  cases result with
  | error e => cases h
  | ok a => exact ⟨a, rfl, Option.some.inj h⟩

theorem source_parse_eq_ok_iff {source : String} {root : Node} :
    Source.parse source = .ok root ↔ parse source.toList = .ok root := by
  cases hp : parse source.toList with
  | error e => simp [Source.parse, hp, Except.mapError]
  | ok r => simp [Source.parse, hp, Except.mapError]

theorem source_toTree_eq {source : String} {root : Node} (h : Source.parse source = .ok root) :
    Source.toTree source = .ok root.toTree := by
  rw [Source.toTree, h]
  rfl

/-- What it means that a tree has all of a source, and each part of it once. -/
structure Lossless (source : String) (root : Node) : Prop where
  wellPlaced : ∀ n ∈ root.preorder, n.WellPlaced
  start : root.start = 0
  stop : root.stop = byteCount source.toList
  words : ∃ words, Woven 0 words source.toList ∧
    root.preorder.filter (·.children.isEmpty) =
      words.map Leaf.node ++ [.leaf .endOfInput (byteCount source.toList) []] ∧
    root.toTree.leaves = words.map (String.ofList ·.text) ++ ["<EOF>"]

/-- A source that is accepted consists of the words of its tree and of gaps. -/
theorem parse_lossless {source : String} {root : Node} (h : Source.parse source = .ok root) :
    Lossless source root ∧ Source.toTree source = .ok root.toTree := by
  have hparse := source_parse_eq_ok_iff.1 h
  refine ⟨?_, source_toTree_eq h⟩
  obtain ⟨inside, stop, hinside, hend, hroot⟩ := parse_eq_ok_iff_inside.1 hparse
  obtain ⟨top, hreads⟩ := parse_eq_ok_iff.1 hparse
  obtain ⟨words, htips, hpasses⟩ := hinside.passes rfl (gapWidth_skipGap _)
  have hreach : (Cursor.start source.toList).Reaches (skipGap stop) :=
    (reaches_skipGap _).trans (hinside.reaches.trans (reaches_skipGap stop))
  have hoffset : (skipGap stop).offset = byteCount source.toList := by
    obtain ⟨s, hs, ho⟩ := hreach
    rw [hend, List.append_nil] at hs
    rw [ho, ← hs]
    exact Nat.zero_add _
  have hwoven : Woven 0 words source.toList := by
    have hall : Passes (.start source.toList) (words ++ []) (skipGap stop) :=
      Passes.trans (.skip hpasses) (.skip .stay)
    rw [List.append_nil] at hall
    exact hall.woven hend
  have hwords : Node.tips [root] =
      words.map Leaf.node ++ [.leaf .endOfInput (byteCount source.toList) []] := by
    rw [hroot, hoffset, Node.tips_branch (by simp), Node.tips_append, htips]
    rfl
  have htop : Node.preorderAll [root] = root.preorder := Node.preorderAll_singleton root
  constructor
  · rw [← htop]
    exact hreads.wellPlaced
  · rw [hroot]
    rfl
  · rw [hroot]
    exact hoffset
  · refine ⟨words, hwoven, ?_, ?_⟩
    · rw [← htop]
      exact hwords
    · rw [Node.toTree, Rose.leaves_toTree, Node.leaves_toRose, hwords, List.map_append,
        List.map_map, ← hwoven.labels]
      rfl

theorem parse_lossless_comment : ∃ root, Source.parse ";/**/" = .ok root ∧
    Lossless ";/**/" root ∧ Source.toTree ";/**/" = .ok root.toTree := by
  have hparse : Source.parse ";/**/" = .ok
      (.branch .compilationUnit 0 5
        [.branch .translationUnit 0 5
          [.branch .externalDeclaration 0 1 [.leaf (.punctuator .semi) 0 [';']]],
         .leaf .endOfInput 5 []]) := by
    cbv
  exact ⟨_, hparse, parse_lossless hparse⟩

end CTree.Parse
