import CTree.Proofs.WordRow
import Mathlib.Computability.RegularExpressions

/-!
# A tree is a derivation

The bodies of the rules are regular expressions over the names of rules and tokens,
once the order of choices, the gaps and the looking ahead are forgotten. The parts of
every node of a parse tree are a word of its rule, and every leaf is a text of its
token. What was tried in vain or only looked at is not among the parts.
-/
namespace CTree.Grammar.Expr
open CTree.Lexical

/-- The expression as a regular expression: a choice is a union, and looking ahead is nothing. -/
def regular : Expr Rule → RegularExpression Symbol
  | nothing | ahead _ => 1
  | token t => .char (.token t)
  | rule r => .char (.rule r)
  | seq e f => e.regular * f.regular
  | alt e f => e.regular + f.regular
  | opt e => e.regular + 1
  | many e => .star e.regular

/-- The words of the expression. -/
def language (e : Expr Rule) : Language Symbol := e.regular.matches'

variable {e f : Expr Rule} {u v : List Symbol}

theorem nil_mem_nothing : [] ∈ (nothing : Expr Rule).language := rfl

theorem nil_mem_ahead : [] ∈ (ahead e).language := rfl

theorem mem_language_token (t : Token) : [.token t] ∈ (token t : Expr Rule).language := rfl

theorem mem_language_rule (r : Rule) : [.rule r] ∈ (rule r).language := rfl

theorem mem_language_seq (hu : u ∈ e.language) (hv : v ∈ f.language) :
    u ++ v ∈ (seq e f).language :=
  Language.append_mem_mul hu hv

theorem mem_language_first (h : u ∈ e.language) : u ∈ (alt e f).language := .inl h

theorem mem_language_second (h : u ∈ f.language) : u ∈ (alt e f).language := .inr h

theorem mem_language_opt (h : u ∈ e.language) : u ∈ (opt e).language := .inl h

theorem nil_mem_opt : [] ∈ (opt e).language := .inr rfl

theorem nil_mem_many : [] ∈ (many e).language := Language.nil_mem_kstar _

/-- One more turn of a repetition. -/
theorem mem_language_turn (hu : u ∈ e.language) (hv : v ∈ (many e).language) :
    u ++ v ∈ (many e).language :=
  Set.mem_of_mem_of_subset (Language.append_mem_mul hu hv)
    (mul_kstar_le_kstar (a := e.language))

end CTree.Grammar.Expr

namespace CTree.Parse
open CTree.Grammar CTree.Lexical CTree.Text

namespace Node

/-- The rule or the token of the node. -/
def symbol : Node → Symbol
  | leaf t _ _ => .token t
  | branch r _ _ _ => .rule r

/-- A node is derived if the parts of a rule are, in a row, a word of its body and the
text of a leaf is all of a token. -/
inductive Derived : Node → Prop
  | endOfInput {start} : Derived (leaf .endOfInput start [])
  | leaf {t start text} : t ≠ .endOfInput → t.width? text = some text.length →
      Derived (leaf t start text)
  | branch {r start stop children} : children ≠ [] →
      children.map symbol ∈ r.body.language → Derived (branch r start stop children)

/-- The text of a leaf. The end of a source has none and is marked. -/
def text : Node → String
  | leaf .endOfInput _ _ => "<EOF>"
  | leaf _ _ text => String.ofList text
  | branch .. => ""

/-- What the node is called: a node with parts by its name, and others by their text. -/
def label (node : Node) : String := if node.children.isEmpty then node.text else node.name

end Node

section
variable {goal : Goal} {here stop : Cursor} {nodes : List Node}

/-- The nodes that a goal yields are a word of its expression. -/
theorem Reads.mem_language (h : Reads goal here (some (nodes, stop))) :
    nodes.map Node.symbol ∈ goal.whole.language := by
  induction h using Reads.match_induction with
  | nothing => exact Expr.nil_mem_nothing
  | token t => exact Expr.mem_language_token t
  | rule r => exact Expr.mem_language_rule r
  | seq _ _ _ _ _ _ _ _ _ ih ih' =>
    rw [List.map_append]
    exact Expr.mem_language_seq ih ih'
  | first _ _ _ _ _ _ ih => exact Expr.mem_language_first ih
  | second _ _ _ _ _ _ _ ih => exact Expr.mem_language_second ih
  | opt _ _ _ _ _ ih => exact Expr.mem_language_opt ih
  | noOpt => exact Expr.nil_mem_opt
  | ahead => exact Expr.nil_mem_ahead
  | noMany | enough => exact Expr.nil_mem_many
  | many _ _ _ _ _ _ _ _ ih ih' | again _ _ _ _ _ _ _ _ ih ih' =>
    rw [List.map_append]
    exact Expr.mem_language_turn ih ih'

/-- Every node read, at any depth, is derived. -/
theorem Reads.derived (h : Reads goal here (some (nodes, stop))) :
    ∀ n ∈ Node.preorderAll nodes, n.Derived := by
  induction h using Reads.match_induction with
  | nothing | noOpt | noMany | ahead | enough => simp [Node.preorderAll]
  | token t here n hn =>
    intro node hnode
    obtain rfl := by simpa [Node.preorder] using hnode
    by_cases ht : t = .endOfInput
    · subst ht
      obtain ⟨-, rfl⟩ := Pattern.width?_absent_eq_some.1 hn
      exact .endOfInput
    · have hwhole := width?_whole (w := []) ht (Pattern.width?_take_append_drop hn)
        (Pattern.outside_nil _)
      rw [List.append_nil] at hwhole
      exact .leaf ht hwhole
  | rule r here nodes stop h ih =>
    intro node hnode
    rw [Node.preorderAll_singleton, Node.preorder, List.mem_cons] at hnode
    rcases hnode with rfl | hnode
    · exact .branch h.ne_nil_of_rule h.mem_language
    · exact ih node hnode
  | first _ _ _ _ _ _ ih | second _ _ _ _ _ _ _ ih | opt _ _ _ _ _ ih => exact ih
  | seq _ _ _ _ _ _ _ _ _ ih ih' | many _ _ _ _ _ _ _ _ ih ih'
  | again _ _ _ _ _ _ _ _ ih ih' =>
    intro node hnode
    rw [Node.preorderAll_append, List.mem_append] at hnode
    exact hnode.elim (ih node) (ih' node)

end

/-! ## How nodes are written -/

theorem Node.toTree_branch (r : Rule) (start stop : Nat) (children : List Node) :
    (branch r start stop children).toTree = .ofParts r.name (children.map toTree) := by
  have hall : ∀ ns : List Node, Rose.sortedAll (toRoses ns) = ns.map toTree := by
    intro ns
    induction ns with
    | nil => rfl
    | cons n ns ih =>
      rw [toRoses, Rose.sortedAll, ih, List.map_cons, toTree, Rose.toTree_eq_sorted]
  rw [toTree, Rose.toTree_eq_sorted, toRose, Rose.sorted, hall]

theorem Node.toTree_leaf {t : Token} {start : Nat} {text : List Char} (ht : t ≠ .endOfInput)
    (htext : text ≠ []) : (leaf t start text).toTree = .leaf (String.ofList text) := by
  cases text with
  | nil => exact absurd rfl htext
  | cons c s =>
    rw [toTree, Rose.toTree_eq_sorted]
    cases t <;> first | rfl | exact absurd rfl ht

/-- A derived node is written under its label. -/
theorem Node.Derived.toTree_eq {node : Node} (h : node.Derived) :
    node.toTree = .ofParts node.label (node.children.map toTree) := by
  cases h with
  | endOfInput =>
    rw [toTree, Rose.toTree_eq_sorted]
    rfl
  | @leaf t start text ht hwidth =>
    have hne : text ≠ [] := IsTokenText.ne_nil ⟨t, ht, hwidth⟩
    rw [toTree_leaf ht hne]
    cases t <;> first | rfl | exact absurd rfl ht
  | @branch r start stop children hne _ =>
    rw [toTree_branch, label, if_neg (by simpa [Node.children] using hne)]
    rfl

/-- Every node of a parse tree is derived from its rule or token, and the tree of the source
has its label: the text of a leaf, and the name of a rule over the parts that it was read
from. -/
theorem parse_derived {source : String} {root : Node} (h : Source.parse source = .ok root) :
    Source.toTree source = .ok root.toTree ∧ ∀ node ∈ root.preorder,
      node.Derived ∧ node.toTree = .ofParts node.label (node.children.map Node.toTree) := by
  obtain ⟨stop, hreads⟩ := parse_eq_ok_iff.1 (source_parse_eq_ok_iff.1 h)
  refine ⟨source_toTree_eq h, fun node hnode => ?_⟩
  rw [← Node.preorderAll_singleton] at hnode
  have hderived := hreads.derived node hnode
  exact ⟨hderived, hderived.toTree_eq⟩

/-- The star is looked at behind the name of the type before it is read. -/
theorem parse_derived_pointer : ∃ root, Source.parse "t *p;" = .ok root ∧
    Source.toTree "t *p;" = .ok root.toTree ∧ ∀ node ∈ root.preorder,
      node.Derived ∧ node.toTree = .ofParts node.label (node.children.map Node.toTree) := by
  have hname : (Source.parse "t *p;").toOption.map Node.name = some "compilationUnit" := by
    decide +kernel
  obtain ⟨root, hparse, -⟩ := exists_ok_of_map hname
  exact ⟨root, hparse, parse_derived hparse⟩

end CTree.Parse
