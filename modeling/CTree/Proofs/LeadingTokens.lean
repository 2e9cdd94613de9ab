import CTree.Proofs.OuterMarks

/-!
# The tokens that a match begins with

Of the bodies of the rules it can be seen, down to a depth, which parts every match begins
with, which classes of tokens a match may begin with, and which pairs of classes. Where the
parts fail, the rule fails; and a reading shows no token at its beginning that the bodies do
not show. At the depth itself nothing is known: of the parts none is, and of the classes all
may be shown.
-/
namespace CTree.Grammar
open CTree.Lexical

namespace Expr

/-- Whether every match of the expression begins with a match of one of the given parts, where
this is known of the rules. -/
def beginsBy (part : Expr Rule → Bool) (rules : Rule → Bool) (e : Expr Rule) : Bool :=
  part e || match e with
    | nothing | token _ | opt _ | many _ => false
    | rule r => rules r
    | seq e _ | ahead e => e.beginsBy part rules
    | alt e f => e.beginsBy part rules && f.beginsBy part rules

end Expr

namespace Rule

def beginsTo (part : Expr Rule → Bool) : Nat → Rule → Bool
  | 0, _ => false
  | depth + 1, r => r.body.beginsBy part (beginsTo part depth)

def leadsTo (K : Token → Bool) : Nat → Rule → Bool
  | 0, _ => true
  | depth + 1, r => r.body.leadsBy K (leadsTo K depth)

end Rule

namespace Expr

/-- Whether every match of the expression begins with a match of one of the given parts, as far
as the rules show it down to a depth. -/
def begins (part : Expr Rule → Bool) (depth : Nat) (e : Expr Rule) : Bool :=
  e.beginsBy part (Rule.beginsTo part depth)

/-- Whether a match may begin with a token of the class, as far as the rules show down to a
depth that it does not. -/
def leads (K : Token → Bool) (depth : Nat) (e : Expr Rule) : Bool :=
  e.leadsBy K (Rule.leadsTo K depth)

/-- Whether a match may consist of one token, as far as it shows without looking at the rules. -/
def single : Expr Rule → Bool
  | nothing | ahead _ => false
  | token _ | rule _ => true
  | seq e f => e.single && f.nullable || e.nullable && f.single
  | alt e f => e.single || f.single
  | opt e | many e => e.single

/-- Whether a match may begin with a token of the first class and one of the second behind it,
where this is known of the rules. -/
def pairsBy (K L : Token → Bool) (depth : Nat) (rules : Rule → Bool) : Expr Rule → Bool
  | nothing | token _ | ahead _ => false
  | rule r => rules r
  | seq e f =>
    e.pairsBy K L depth rules || e.single && e.leads K depth && f.leads L depth ||
      e.nullable && f.pairsBy K L depth rules
  | alt e f => e.pairsBy K L depth rules || f.pairsBy K L depth rules
  | opt e => e.pairsBy K L depth rules
  | many e => e.pairsBy K L depth rules || e.leads K depth && e.leads L depth

end Expr

def Rule.pairsTo (K L : Token → Bool) : Nat → Rule → Bool
  | 0, _ => true
  | depth + 1, r => r.body.pairsBy K L depth (pairsTo K L depth)

/-- Whether a match may begin with tokens of the two classes, as far as the rules show down to
a depth that it does not. -/
def Expr.pairs (K L : Token → Bool) (depth : Nat) (e : Expr Rule) : Bool :=
  e.pairsBy K L depth (Rule.pairsTo K L depth)

/-- A token other than the given one. -/
def isOther (t : Token) : Expr Rule → Bool
  | .token other => other ≠ t
  | _ => false

end CTree.Grammar

namespace CTree.Parse
open CTree.Grammar CTree.Lexical CTree.Lexical.Pattern CTree.Text

/-! ## What every match begins with -/

section
variable {part : Expr Rule → Bool} {here stop : Cursor} {e : Expr Rule} {d : Nat}

theorem reads_none_of_beginsBy {rules : Rule → Bool}
    (hpart : ∀ e, part e = true → Reads (.once e) here none)
    (hrules : ∀ r, rules r = true → Reads (.once (.rule r)) here none)
    (h : e.beginsBy part rules = true) : Reads (.once e) here none := by
  induction e with
  | nothing | token _ | opt _ | many _ =>
    simp only [Expr.beginsBy, Bool.or_false] at h
    exact hpart _ h
  | rule r =>
    simp only [Expr.beginsBy, Bool.or_eq_true] at h
    exact h.elim (hpart _) (hrules r)
  | seq e f ih _ =>
    simp only [Expr.beginsBy, Bool.or_eq_true] at h
    exact h.elim (hpart _) fun h => .noFirst (ih h)
  | alt e f ihe ihf =>
    simp only [Expr.beginsBy, Bool.or_eq_true, Bool.and_eq_true] at h
    exact h.elim (hpart _) fun h => .second (ihe h.1) (ihf h.2)
  | ahead e ih =>
    simp only [Expr.beginsBy, Bool.or_eq_true] at h
    exact h.elim (hpart _) fun h => .noAhead (ih h)

/-- Where the parts fail that every match begins with, the expression fails. -/
theorem reads_none_of_begins (hpart : ∀ e, part e = true → Reads (.once e) here none)
    (h : e.begins part d = true) : Reads (.once e) here none := by
  refine reads_none_of_beginsBy hpart (fun r hr => ?_) h
  clear h
  induction d generalizing r with
  | zero => cases hr
  | succ d ih => exact .noRule (reads_none_of_beginsBy hpart ih hr)

/-- Where one token only may be read, what begins with another one fails. -/
theorem reads_none_of_lone {t : Token} (d : Nat) (hlone : Lone t here.rest)
    (h : e.begins (isOther t) d = true) :
    Reads (.once e) here none := by
  refine reads_none_of_begins (fun part hpart => ?_) h
  cases part with
  | token other => exact .noToken (hlone other (by simpa [isOther] using hpart))
  | nothing | rule _ | seq _ _ | alt _ _ | opt _ | many _ | ahead _ => cases hpart

end

/-! ## The tokens of a reading -/

section
variable {goal : Goal} {here stop : Cursor} {nodes : List Node} {K L : Token → Bool} {d : Nat}

theorem Reads.nullable_of_tokens (h : Reads goal here (some (nodes, stop)))
    (hin : goal.expr.inner = true) (hnil : Node.tokens nodes = []) :
    goal.whole.nullable = true := by
  refine h.nullable_of_wordTexts hin ?_
  rw [Node.wordTexts, List.map_eq_nil_iff.1 hnil, List.map_nil]

lemma mem_head_append {t : Token} {us vs : List Token} (h : t ∈ (us ++ vs).head?) :
    t ∈ us.head? ∨ us = [] ∧ t ∈ vs.head? := by
  cases us with
  | nil => exact .inr ⟨rfl, h⟩
  | cons u us => exact .inl h

lemma pair_prefix_append {s t : Token} {us vs : List Token} (h : [s, t] <+: us ++ vs) :
    [s, t] <+: us ∨ us = [s] ∧ t ∈ vs.head? ∨ us = [] ∧ [s, t] <+: vs := by
  rcases us with _ | ⟨u, _ | ⟨v, us⟩⟩
  · exact .inr (.inr ⟨rfl, h⟩)
  · obtain ⟨rfl, r, hr⟩ := List.cons_prefix_cons.1 h
    exact .inr (.inl ⟨rfl, by rw [show vs = t :: r from hr.symm]; rfl⟩)
  · obtain ⟨rfl, hmore⟩ := List.cons_prefix_cons.1 h
    obtain ⟨rfl, -⟩ := List.cons_prefix_cons.1 hmore
    exact .inl ⟨us, rfl⟩

theorem Reads.single_of_tokens (h : Reads goal here (some (nodes, stop)))
    (hin : goal.expr.inner = true) {t : Token} (hone : Node.tokens nodes = [t]) :
    goal.whole.single = true := by
  induction h using Reads.match_induction with
  | nothing | noOpt | noMany | ahead | enough => cases hone
  | token | rule => rfl
  | seq e f _ _ _ _ _ h h' ih ih' =>
    obtain ⟨hin₁, hin₂⟩ := Bool.and_eq_true_iff.1 hin
    rw [Node.tokens_append] at hone
    simp only [Goal.whole, Expr.single, Bool.or_eq_true, Bool.and_eq_true]
    rcases List.append_eq_singleton_iff.1 hone with ⟨hnil, hone⟩ | ⟨hone, hnil⟩
    · exact .inr ⟨h.nullable_of_tokens hin₁ hnil, ih' hin₂ hone⟩
    · exact .inl ⟨ih hin₁ hone, h'.nullable_of_tokens hin₂ hnil⟩
  | first _ _ _ _ _ _ ih =>
    exact Bool.or_eq_true_iff.2 (.inl (ih (Bool.and_eq_true_iff.1 hin).1 hone))
  | second _ _ _ _ _ _ _ ih =>
    exact Bool.or_eq_true_iff.2 (.inr (ih (Bool.and_eq_true_iff.1 hin).2 hone))
  | opt _ _ _ _ _ ih => exact ih hin hone
  | many _ _ _ _ _ _ _ _ ih ih' | again _ _ _ _ _ _ _ _ ih ih' =>
    rw [Node.tokens_append] at hone
    rcases List.append_eq_singleton_iff.1 hone with ⟨-, hone⟩ | ⟨hone, -⟩
    · exact ih' hin hone
    · exact ih hin hone

/-- The first token that is read is of no class that the goal does not begin with. -/
theorem Reads.first_token (h : Reads goal here (some (nodes, stop)))
    (hin : goal.expr.inner = true) (hno : goal.whole.leads K d = false) :
    ∀ t ∈ (Node.tokens nodes).head?, K t = false := by
  induction h using Reads.match_induction generalizing d with
  | nothing | noOpt | noMany | ahead | enough => simp [Node.tokens_nil]
  | token t here k hk =>
    rw [Node.tokens_leaf (Expr.inner_token_iff.1 hin)]
    intro other hother
    obtain rfl : t = other := by simpa using hother
    exact hno
  | rule r here nodes stop h ih =>
    rw [Node.tokens_branch h.ne_nil_of_rule]
    cases d with
    | zero => cases hno
    | succ d => exact ih (Rule.inner_body (Expr.inner_rule_iff.1 hin)) hno
  | seq e f _ _ _ _ _ h _ ih ih' =>
    obtain ⟨hin₁, hin₂⟩ := Bool.and_eq_true_iff.1 hin
    obtain ⟨hfirst, hsecond⟩ := Bool.or_eq_false_iff.1 hno
    rw [Node.tokens_append]
    intro t ht
    rcases mem_head_append ht with ht | ⟨hnil, ht⟩
    · exact ih hin₁ hfirst t ht
    · rw [show e.nullable = true from h.nullable_of_tokens hin₁ hnil, Bool.true_and] at hsecond
      exact ih' hin₂ hsecond t ht
  | first e f _ _ _ _ ih =>
    exact ih (Bool.and_eq_true_iff.1 hin).1 (Bool.or_eq_false_iff.1 hno).1
  | second e f _ _ _ _ _ ih =>
    exact ih (Bool.and_eq_true_iff.1 hin).2 (Bool.or_eq_false_iff.1 hno).2
  | opt _ _ _ _ _ ih => exact ih hin hno
  | many _ _ _ _ _ _ _ _ ih ih' | again _ _ _ _ _ _ _ _ ih ih' =>
    rw [Node.tokens_append]
    intro t ht
    rcases mem_head_append ht with ht | ⟨-, ht⟩
    · exact ih hin hno t ht
    · exact ih' hin hno t ht

theorem Reads.leads_of_first_token (h : Reads goal here (some (nodes, stop)))
    (hin : goal.expr.inner = true) {t : Token} (ht : t ∈ (Node.tokens nodes).head?)
    (hK : K t = true) : goal.whole.leads K d = true := by
  by_contra hno
  have hfalse := h.first_token hin (by simpa using hno) t ht
  rw [hK] at hfalse
  cases hfalse

/-- The first two tokens that are read are not of two classes that the goal does not begin with. -/
theorem Reads.first_tokens (h : Reads goal here (some (nodes, stop)))
    (hin : goal.expr.inner = true) (hno : goal.whole.pairs K L d = false)
    {s t : Token} (hpre : [s, t] <+: Node.tokens nodes) (hs : K s = true) : L t = false := by
  induction h using Reads.match_induction generalizing d with
  | nothing | noOpt | noMany | ahead | enough => exact absurd hpre (by simp [Node.tokens_nil])
  | token other here k hk =>
    rw [Node.tokens_leaf (Expr.inner_token_iff.1 hin)] at hpre
    exact absurd hpre.length_le (by simp)
  | rule r here nodes stop h ih =>
    rw [Node.tokens_branch h.ne_nil_of_rule] at hpre
    cases d with
    | zero => cases hno
    | succ d => exact ih (Rule.inner_body (Expr.inner_rule_iff.1 hin)) hno hpre
  | seq e f _ _ _ _ _ h h' ih ih' =>
    obtain ⟨hin₁, hin₂⟩ := Bool.and_eq_true_iff.1 hin
    obtain ⟨hboth, hmore⟩ := Bool.or_eq_false_iff.1 hno
    obtain ⟨hone, hboth⟩ := Bool.or_eq_false_iff.1 hboth
    rw [Node.tokens_append] at hpre
    rcases pair_prefix_append hpre with hpre | ⟨hfirst, ht⟩ | ⟨hnil, hpre⟩
    · exact ih hin₁ hone hpre
    · have hsingle := h.single_of_tokens hin₁ hfirst
      have hleads := h.leads_of_first_token (d := d) hin₁ (by rw [hfirst]; rfl) hs
      rw [show e.single = true from hsingle, show e.leads K d = true from hleads, Bool.true_and,
        Bool.true_and] at hboth
      exact h'.first_token hin₂ hboth t ht
    · rw [show e.nullable = true from h.nullable_of_tokens hin₁ hnil, Bool.true_and] at hmore
      exact ih' hin₂ hmore hpre
  | first e f _ _ _ _ ih =>
    exact ih (Bool.and_eq_true_iff.1 hin).1 (Bool.or_eq_false_iff.1 hno).1 hpre
  | second e f _ _ _ _ _ ih =>
    exact ih (Bool.and_eq_true_iff.1 hin).2 (Bool.or_eq_false_iff.1 hno).2 hpre
  | opt _ _ _ _ _ ih => exact ih hin hno hpre
  | many e _ _ _ _ _ h h' ih ih' | again e _ _ _ _ _ h h' ih ih' =>
    obtain ⟨hturn, hboth⟩ := Bool.or_eq_false_iff.1 hno
    rw [Node.tokens_append] at hpre
    rcases pair_prefix_append hpre with hpre | ⟨hfirst, ht⟩ | ⟨-, hpre⟩
    · exact ih hin hturn hpre
    · have hleads := h.leads_of_first_token (d := d) hin (by rw [hfirst]; rfl) hs
      rw [show e.leads K d = true from hleads, Bool.true_and] at hboth
      exact h'.first_token hin hboth t ht
    · exact ih' hin hno hpre

end

/-! ## The next word -/

section
variable {here stop : Cursor} {w : Leaf} {words : List Leaf} {t : Token} {n : Nat}

/-- A token that no other one can be read for is the next word. -/
theorem Passes.next_of_lone (h : Passes here (w :: words) stop) (hgap : gapWidth here.rest = 0)
    (hlone : Lone t here.rest) (hn : t.width? here.rest = some n) :
    w.token = t ∧ Passes (here.advance n) words stop := by
  obtain ⟨m, hm, -, -, hrest⟩ := h.next
  rw [skipGap_of_gapWidth hgap] at hm hrest
  have ht := hlone.eq hm
  rw [ht, hn] at hm
  obtain rfl := Option.some.inj hm
  exact ⟨ht, hrest⟩

end
end CTree.Parse
