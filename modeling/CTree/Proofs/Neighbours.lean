import CTree.Proofs.GrammarEdges
import CTree.Proofs.LosslessParse

/-!
# Neighbours among the words

Of two classes of tokens the grammar may keep the first from standing in front of the second:
no part that may end in the first stands in front of one that may begin in the second. Then no
word of the first class stands in front of one of the second in anything that is read.
-/
namespace CTree.Parse
open CTree.Grammar CTree.Lexical CTree.Text

/-- The expression whose matches are the readings of the goal. -/
def Goal.whole : Goal → Expr Rule
  | once e => e
  | again e => .many e

/-- The word that a node stands for. The mark at the end of a text stands for none. -/
def Node.word? : Node → Option Leaf
  | leaf .endOfInput _ _ | branch .. => none
  | leaf t start text => some ⟨t, start, text⟩

/-- The words of the nodes, from left to right. -/
def Node.words (nodes : List Node) : List Leaf := (tips nodes).filterMap word?

theorem Node.words_append (ns ms : List Node) : words (ns ++ ms) = words ns ++ words ms := by
  rw [words, tips_append, List.filterMap_append, words, words]

theorem Node.words_branch {r : Rule} {start stop : Nat} {nodes : List Node} (h : nodes ≠ []) :
    words [.branch r start stop nodes] = words nodes := by
  rw [words, tips_branch h, words]

theorem Node.words_leaf {t : Token} (ht : t ≠ .endOfInput) (start : Nat) (text : List Char) :
    words [.leaf t start text] = [⟨t, start, text⟩] := by
  have htip : tips [leaf t start text] = [leaf t start text] := by
    simp [tips, preorder, children]
  rw [words, htip]
  cases t <;> first | rfl | exact absurd rfl ht

theorem Node.words_eq {nodes : List Node} {words : List Leaf}
    (h : tips nodes = words.map Leaf.node) (ht : ∀ w ∈ words, w.token ≠ .endOfInput) :
    Node.words nodes = words := by
  rw [Node.words, h, List.filterMap_map]
  have hword : ∀ w ∈ words, (word? ∘ Leaf.node) w = some w := by
    rintro ⟨t, start, text⟩ hw
    have hne := ht _ hw
    cases t <;> first | rfl | exact absurd rfl hne
  rw [List.filterMap_congr hword, List.filterMap_some]

/-- The tokens that were read, from left to right. -/
def Node.tokens (nodes : List Node) : List Token := (words nodes).map (·.token)

theorem Node.tokens_nil : tokens [] = [] := rfl

theorem Node.tokens_append (ns ms : List Node) : tokens (ns ++ ms) = tokens ns ++ tokens ms := by
  rw [tokens, words_append, List.map_append, tokens, tokens]

theorem Node.tokens_leaf {t : Token} (ht : t ≠ .endOfInput) (start : Nat) (text : List Char) :
    tokens [leaf t start text] = [t] := by
  rw [tokens, words_leaf ht, List.map_singleton]

theorem Node.tokens_branch {r : Rule} {start stop : Nat} {nodes : List Node} (h : nodes ≠ []) :
    tokens [branch r start stop nodes] = tokens nodes := by
  rw [tokens, words_branch h, tokens]

/-- The tokens of a match of the expression: none of the first class stands in front of one of
the second, and how they begin and end is known from the expression. -/
structure Neighbours (K L : Token → Bool) (e : Expr Rule) (tokens : List Token) : Prop where
  chain : tokens.IsChain fun t next => ¬ (K t = true ∧ L next = true)
  first : ∀ t ∈ tokens.head?, L t = true → e.leadsIn L = true
  last : ∀ t ∈ tokens.getLast?, K t = true → e.endsIn K = true
  nullable : tokens = [] → e.nullable = true

section
variable {K L : Token → Bool} {e f : Expr Rule} {tokens more : List Token}

theorem Neighbours.nil (h : e.nullable = true) : Neighbours K L e [] := by
  constructor
  · exact .nil
  · simp
  · simp
  · exact fun _ => h

theorem Neighbours.mono (h : Neighbours K L e tokens)
    (hleads : e.leadsIn L = true → f.leadsIn L = true)
    (hends : e.endsIn K = true → f.endsIn K = true)
    (hnullable : e.nullable = true → f.nullable = true) : Neighbours K L f tokens where
  chain := h.chain
  first t ht hL := hleads (h.first t ht hL)
  last t ht hK := hends (h.last t ht hK)
  nullable hnil := hnullable (h.nullable hnil)

theorem Neighbours.seq (h : Neighbours K L e tokens) (h' : Neighbours K L f more)
    (hparts : (e.seq f).parts K L = true) : Neighbours K L (.seq e f) (tokens ++ more) := by
  constructor
  · refine h.chain.append h'.chain fun t ht next hnext hboth => ?_
    have hno := (Bool.and_eq_true_iff.1 hparts).2
    rw [h.last t ht hboth.1, h'.first next hnext hboth.2] at hno
    cases hno
  · intro t ht hL
    cases tokens with
    | nil => exact Bool.or_eq_true_iff.2 (.inr (Bool.and_eq_true_iff.2 ⟨h.nullable rfl,
        h'.first t ht hL⟩))
    | cons first tokens => exact Bool.or_eq_true_iff.2 (.inl (h.first t ht hL))
  · intro t ht hK
    cases hmore : more.getLast? with
    | none =>
      obtain rfl := List.getLast?_eq_none_iff.1 hmore
      rw [List.append_nil] at ht
      exact Bool.or_eq_true_iff.2 (.inr (Bool.and_eq_true_iff.2 ⟨h'.nullable rfl, h.last t ht hK⟩))
    | some last =>
      rw [List.getLast?_append, hmore, Option.some_or] at ht
      exact Bool.or_eq_true_iff.2 (.inl (h'.last t (by rw [hmore]; exact ht) hK))
  · intro hnil
    obtain ⟨rfl, rfl⟩ := List.append_eq_nil_iff.1 hnil
    simp [Expr.nullable, h.nullable rfl, h'.nullable rfl]

/-- One more turn of a repetition. -/
theorem Neighbours.turn (h : Neighbours K L e tokens) (h' : Neighbours K L (.many e) more)
    (hparts : e.many.parts K L = true) : Neighbours K L (.many e) (tokens ++ more) := by
  have hturn : (e.seq e.many).parts K L = true := by
    have hboth := Bool.and_eq_true_iff.1 hparts
    simp only [Expr.parts, Bool.and_eq_true]
    exact ⟨⟨hboth.1, hboth⟩, hboth.2⟩
  refine (h.seq h' hturn).mono ?_ ?_ fun _ => rfl
  · intro hleads
    exact (Bool.or_eq_true_iff.1 hleads).elim id fun h => (Bool.and_eq_true_iff.1 h).2
  · intro hends
    exact (Bool.or_eq_true_iff.1 hends).elim id fun h => (Bool.and_eq_true_iff.1 h).2

end

/-- In what was read, no word of the first class stands in front of one of the second. -/
theorem Reads.neighbours {K L : Token → Bool} (hall : Rule.Parted K L) {goal : Goal}
    {here stop : Cursor} {nodes : List Node} (h : Reads goal here (some (nodes, stop)))
    (hin : goal.expr.inner = true) (hparts : goal.whole.parts K L = true) :
    Neighbours K L goal.whole (Node.tokens nodes) := by
  induction h using Reads.match_induction with
  | nothing | noOpt | noMany | ahead | enough => exact .nil rfl
  | token t here n hn =>
    rw [Node.tokens_leaf (Expr.inner_token_iff.1 hin)]
    constructor
    · exact .singleton t
    · intro next hnext hL
      obtain rfl : t = next := by simpa using hnext
      exact hL
    · intro last hlast hK
      obtain rfl : t = last := by simpa using hlast
      exact hK
    · simp
  | rule r here nodes stop h ih =>
    have hr := Expr.inner_rule_iff.1 hin
    have hbody := ih (Rule.inner_body hr) (hall.parts r r.mem_all)
    rw [Node.tokens_branch h.ne_nil_of_rule]
    constructor
    · exact hbody.chain
    · intro t ht hL
      exact (hall.leads r r.mem_all).symm.trans (hbody.first t ht hL)
    · intro t ht hK
      exact (hall.ends r r.mem_all).symm.trans (hbody.last t ht hK)
    · intro hnil
      have hnull := hbody.nullable hnil
      rw [Goal.whole, r.nullable_body] at hnull
      cases hnull
  | first e f _ _ _ _ ih =>
    refine (ih (Bool.and_eq_true_iff.1 hin).1 (Bool.and_eq_true_iff.1 hparts).1).mono
      (fun h => ?_) (fun h => ?_) fun h => ?_
    all_goals exact Bool.or_eq_true_iff.2 (.inl h)
  | second e f _ _ _ _ _ ih =>
    refine (ih (Bool.and_eq_true_iff.1 hin).2 (Bool.and_eq_true_iff.1 hparts).2).mono
      (fun h => ?_) (fun h => ?_) fun h => ?_
    all_goals exact Bool.or_eq_true_iff.2 (.inr h)
  | opt e _ _ _ _ ih => exact (ih hin hparts).mono id id fun _ => rfl
  | seq e f here nodes mid more stop _ _ ih ih' =>
    obtain ⟨hin₁, hin₂⟩ := Bool.and_eq_true_iff.1 hin
    obtain ⟨hfirst, hsecond⟩ := Bool.and_eq_true_iff.1 (Bool.and_eq_true_iff.1 hparts).1
    rw [Node.tokens_append]
    exact (ih hin₁ hfirst).seq (ih' hin₂ hsecond) hparts
  | many e here nodes mid more stop _ _ ih ih' =>
    rw [Node.tokens_append]
    exact (ih hin (Bool.and_eq_true_iff.1 hparts).1).turn (ih' hin hparts) hparts
  | again e here nodes mid more stop _ _ ih ih' =>
    rw [Node.tokens_append]
    exact (ih hin (Bool.and_eq_true_iff.1 hparts).1).turn (ih' hin hparts) hparts

/-- No two neighbours in what was read clash. -/
theorem Reads.no_clash {e : Expr Rule} {here stop : Cursor} {nodes : List Node}
    (h : Reads (.once e) here (some (nodes, stop))) (hin : e.inner = true) (hapart : e.Apart) :
    (Node.tokens nodes).IsChain fun t next => t.clash next = false := by
  have hchain : ∀ t ∈ Token.snagging,
      (Node.tokens nodes).IsChain fun s next => ¬ (decide (s = t) = true ∧ t.clash next = true) :=
    fun t ht => (h.neighbours (Rule.parted_clash ht) hin (hapart.parts ht)).chain
  rw [List.isChain_iff_getElem]
  intro i hi
  by_contra hclash
  have hclash : (Node.tokens nodes)[i].clash (Node.tokens nodes)[i + 1] = true := by
    simpa using hclash
  have hno := List.isChain_iff_getElem.1 (hchain _ (Token.mem_snagging_of_clash hclash)) i hi
  exact hno ⟨decide_eq_true rfl, hclash⟩

end CTree.Parse
