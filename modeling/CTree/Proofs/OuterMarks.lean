import CTree.Proofs.BracketLevel

/-!
# Marks outside of all brackets

A declaration ends with a semicolon, and a function with a brace, outside of all brackets.
Of many rules it can be seen that they try no token behind such a mark, whatever the text
goes on with. Which rules may read a mark outside of all brackets, and which begin with a
given token, is found by going over all rules until nothing is added.
-/
namespace CTree.Lexical.Token

/-- The marks that a declaration and a function end with. -/
def closing : List Token := [punctuator .semi, punctuator .rightBrace]

/-- The tokens that show where a part of a declaration begins or ends. -/
def landmarks : List Token :=
  closing ++ [punctuator .leftBrace, punctuator .assign, punctuator .comma,
    keyword .kwStaticAssert]

/-- How a punctuator, or a reserved word with one spelling, is written. -/
def spelling : Token → List Char
  | keyword k => k.spellings.flatMap String.toList
  | punctuator p => p.text.toList
  | _ => []

theorem mem_landmarks_of_closing {t : Token} (h : t ∈ closing) : t ∈ landmarks :=
  List.mem_append_left _ h

/-- A landmark is read from its spelling. -/
theorem take_eq_spelling {t : Token} {s : List Char} {n : Nat} (ht : t ∈ landmarks)
    (h : t.width? s = some n) : s.take n = t.spelling := by
  cases t with
  | punctuator p =>
    obtain ⟨⟨r, rfl⟩, rfl, -⟩ := width?_punctuator_eq_some.1 h
    exact List.take_left
  | keyword k =>
    obtain rfl : k = .kwStaticAssert := by simpa [landmarks, closing] using ht
    obtain ⟨a, b, ha, hb, rfl⟩ := Pattern.width?_seq_eq_some.1 h
    obtain ⟨-, rfl⟩ := Pattern.width?_absent_eq_some.1 hb
    obtain ⟨⟨r, rfl⟩, rfl⟩ := Pattern.width?_word_eq_some.1 ha
    exact List.take_left
  | endOfInput | identifier | constant | stringLiteral => simp [landmarks, closing] at ht

/-- The spelling of a landmark is read by no other token. -/
theorem eq_of_take_eq_spelling {t other : Token} {s : List Char} {n : Nat} (ht : t ∈ landmarks)
    (ho : other ≠ .endOfInput) (h : other.width? s = some n) (hs : s.take n = t.spelling) :
    other = t := by
  have hall : ∀ t ∈ landmarks, ∀ other ∈ words,
      other.width? t.spelling = some t.spelling.length → other = t := by decide +kernel
  have hwhole : other.width? (s.take n ++ []) = some (s.take n).length :=
    width?_whole ho (Pattern.width?_take_append_drop h) (Pattern.outside_nil _)
  rw [List.append_nil, hs] at hwhole
  exact hall t ht other (other.mem_words.resolve_left ho) hwhole

end CTree.Lexical.Token

namespace CTree.Grammar
open CTree.Lexical

namespace Expr

/-- Whether the token may be the first one that is tried, where this is known of the rules. -/
def opensBy (rules : Rule → Bool) (t : Token) : Expr Rule → Bool
  | nothing => false
  | token other => other = t
  | rule r => rules r
  | seq e f => e.opensBy rules t || e.nullable && f.opensBy rules t
  | alt e f => e.opensBy rules t || f.opensBy rules t
  | opt e | many e | ahead e => e.opensBy rules t

/-- Whether the mark may be read outside of all brackets by a match that begins at the given
level, where this is known of the rules. -/
def showsBy (rules : Rule → Bool) (mark : Token) (n : Nat) : Expr Rule → Bool
  | nothing => false
  | token t => t = mark ∧ tokenLevel n t = some 0
  | rule r => n = 0 && rules r
  | seq e f => e.showsBy rules mark n || f.showsBy rules mark ((e.level n).getD 0)
  | alt e f => e.showsBy rules mark n || f.showsBy rules mark n
  | opt e | many e | ahead e => e.showsBy rules mark n

end Expr

namespace Rule

def opens (t : Token) (r : Rule) : Bool :=
  (swept fun rules r => r.body.opensBy rules t).contains r

def shows (mark : Token) (r : Rule) : Bool :=
  (swept fun rules r => r.body.showsBy rules mark 0).contains r

end Rule

namespace Expr

/-- Whether the token may be the first one that is tried. -/
def opens (t : Token) (e : Expr Rule) : Bool := e.opensBy (Rule.opens t) t

/-- Whether the mark may be read outside of all brackets. -/
def shows (mark : Token) (n : Nat) (e : Expr Rule) : Bool := e.showsBy (Rule.shows mark) mark n

/-- Whether a token may be tried behind a mark that was read outside of all brackets, where
this is known of the rules. -/
def overrunsBy (rules : Rule → Bool) (mark : Token) (n : Nat) : Expr Rule → Bool
  | nothing | token _ => false
  | rule r => n = 0 && rules r
  | seq e f =>
    e.overrunsBy rules mark n || e.shows mark n || f.overrunsBy rules mark ((e.level n).getD 0)
  | alt e f => e.overrunsBy rules mark n || f.overrunsBy rules mark n
  | opt e | ahead e => e.overrunsBy rules mark n
  | many e => e.overrunsBy rules mark n || e.shows mark n

end Expr

/-- Whether the rule may try a token behind a mark that it has read outside of all brackets,
as far as the bodies of the rules that it calls show it down to a depth. -/
def Rule.overrunsTo (mark : Token) : Nat → Rule → Bool
  | 0, r => r.shows mark
  | depth + 1, r => r.body.overrunsBy (overrunsTo mark depth) mark 0

namespace Expr

/-- Outside of all brackets a rule shows what its body shows, and inside nothing. -/
theorem shows_rule (mark : Token) (n : Nat) (r : Rule) :
    (rule r).shows mark n = (n = 0 && r.shows mark) := rfl

theorem shows_rule_eq_false {mark : Token} {r : Rule} (h : r.shows mark = false) (n : Nat) :
    (rule r).shows mark n = false := by
  rw [shows_rule, h, Bool.and_false]

theorem overrunsBy_rule (rules : Rule → Bool) (mark : Token) (n : Nat) (r : Rule) :
    (rule r).overrunsBy rules mark n = (n = 0 && rules r) := rfl

/-- What shows no mark tries no token behind one. -/
theorem overrunsBy_eq_false_of_shows {mark : Token} {n : Nat} {e : Expr Rule}
    (h : e.shows mark n = false) : e.overrunsBy (Rule.overrunsTo mark 0) mark n = false := by
  induction e generalizing n with
  | nothing | token _ => rfl
  | rule r => exact h
  | seq e f ihe ihf =>
    obtain ⟨he, hf⟩ := Bool.or_eq_false_iff.1 h
    simp only [overrunsBy, Bool.or_eq_false_iff]
    exact ⟨⟨ihe he, he⟩, ihf hf⟩
  | alt e f ihe ihf =>
    obtain ⟨he, hf⟩ := Bool.or_eq_false_iff.1 h
    exact Bool.or_eq_false_iff.2 ⟨ihe he, ihf hf⟩
  | opt e ih | ahead e ih => exact ih h
  | many e ih => exact Bool.or_eq_false_iff.2 ⟨ih h, h⟩

end Expr

namespace Rule

/-! ## All rules -/

theorem opens_body {t : Token} (h : t ∈ Token.landmarks) (r : Rule) :
    r.body.opens t = r.opens t := by
  have hall : ∀ t ∈ Token.landmarks, ∀ r ∈ all, r.body.opens t = r.opens t := by
    decide +kernel
  exact hall t h r (mem_all r)

theorem shows_body {mark : Token} (h : mark ∈ Token.closing) (r : Rule) :
    r.body.shows mark 0 = r.shows mark := by
  have hall : ∀ mark ∈ Token.closing, ∀ r ∈ all, r.body.shows mark 0 = r.shows mark := by
    decide +kernel
  exact hall mark h r (mem_all r)

end Rule
end CTree.Grammar

namespace CTree.Parse
open CTree.Grammar CTree.Lexical CTree.Text

/-! ## Rows with a mark -/

/-- The mark stands in the row outside of all brackets, when the row begins at the level. -/
def Marked (mark : Token) (n : Nat) (words : List (List Char)) : Prop :=
  ∃ front, front ++ [mark.spelling] <+: words ∧ rowLevel n (front ++ [mark.spelling]) = some 0

section Marked
variable {mark : Token} {n k : Nat} {words more : List (List Char)}

theorem not_marked_nil : ¬ Marked mark n [] := by
  rintro ⟨front, hpre, -⟩
  exact List.append_ne_nil_of_right_ne_nil front (List.cons_ne_nil _ _) (List.prefix_nil.1 hpre)

theorem Marked.mono (h : Marked mark n words) (hpre : words <+: more) :
    Marked mark n more := by
  obtain ⟨front, hfront, hlevel⟩ := h
  exact ⟨front, hfront.trans hpre, hlevel⟩

theorem Marked.of_append (h : Marked mark n (words ++ more)) (hlevel : rowLevel n words = some k) :
    Marked mark n words ∨ Marked mark k more := by
  obtain ⟨front, hpre, hend⟩ := h
  rcases List.prefix_or_prefix_of_prefix hpre (List.prefix_append words more) with hin | ⟨r, hr⟩
  · exact .inl ⟨front, hin, hend⟩
  rcases r.eq_nil_or_concat' with rfl | ⟨front', u, rfl⟩
  · rw [List.append_nil] at hr
    exact .inl ⟨front, by rw [hr], hend⟩
  · obtain ⟨rfl, hu⟩ := List.append_inj' ((List.append_assoc words front' [u]).trans hr) rfl
    rw [List.append_assoc] at hpre hend
    rw [rowLevel_append hlevel] at hend
    exact .inr ⟨front', (List.prefix_append_right_inj words).1 hpre, hend⟩

/-- Inside of a bracket that the row does not close, nothing is outside of all brackets. -/
theorem not_marked_of_pos (hn : 0 < n) (h : rowLevel 0 words = some k) :
    ¬ Marked mark n words := by
  rintro ⟨front, hpre, hlevel⟩
  obtain ⟨k, hk⟩ := exists_rowLevel_front hpre h
  have hadd := rowLevel_add hk n
  rw [Nat.zero_add, hlevel] at hadd
  have hsum := Option.some.inj hadd
  omega

end Marked

section
variable {goal : Goal} {here there stop : Cursor} {mark t : Token} {nodes read : List Node}
  {n m d : Nat}

/-- What shows no mark reads none outside of all brackets. -/
theorem Reads.not_marked (hmark : mark ∈ Token.closing)
    (h : Reads goal here (some (nodes, stop))) (hlevel : goal.whole.level n = some m)
    (hshows : goal.whole.shows mark n = false) : ¬ Marked mark n (Node.wordTexts nodes) := by
  induction h using Reads.match_induction generalizing n m with
  | nothing | noOpt | noMany | ahead | enough => exact not_marked_nil
  | token t here k hk =>
    by_cases ht : t = .endOfInput
    · subst ht
      exact not_marked_nil
    rw [Node.wordTexts_leaf ht]
    rintro ⟨front, hpre, hend⟩
    have hlength := hpre.length_le
    rw [List.length_append, List.length_singleton, List.length_singleton] at hlength
    obtain rfl : front = [] := List.eq_nil_of_length_eq_zero (by omega)
    have htext : mark.spelling = here.rest.take k := (List.cons_prefix_cons.1 hpre).1
    have hmarked := Token.eq_of_take_eq_spelling (Token.mem_landmarks_of_closing hmark) ht hk
      htext.symm
    have htoken : tokenLevel n t = some 0 := by
      rw [← wordLevel_take ht hk n, ← htext, ← hend]
      exact (Option.bind_fun_some _).symm
    have hno : ¬ (t = mark ∧ tokenLevel n t = some 0) := of_decide_eq_false hshows
    exact hno ⟨hmarked, htoken⟩
  | rule r here nodes stop h ih =>
    rw [Node.wordTexts_branch h.ne_nil_of_rule]
    rcases Nat.eq_zero_or_pos n with rfl | hpos
    · rw [Goal.whole, Expr.shows_rule, ← Rule.shows_body hmark] at hshows
      exact ih (r.level_body 0) hshows
    · exact not_marked_of_pos hpos (h.rowLevel_eq (n := 0) (r.level_body 0))
  | seq e f _ _ _ _ _ h _ ih ih' =>
    obtain ⟨k, hfirst, hsecond⟩ := Expr.level_seq_eq_some hlevel
    obtain ⟨hshows₁, hshows₂⟩ := Bool.or_eq_false_iff.1 hshows
    rw [hfirst, Option.getD_some] at hshows₂
    rw [Node.wordTexts_append]
    intro hmarked
    rcases hmarked.of_append (h.rowLevel_eq hfirst) with hin | hin
    · exact ih hfirst hshows₁ hin
    · exact ih' hsecond hshows₂ hin
  | first _ _ _ _ _ _ ih =>
    exact ih (Expr.level_alt_eq_some hlevel).1 (Bool.or_eq_false_iff.1 hshows).1
  | second _ _ _ _ _ _ _ ih =>
    exact ih (Expr.level_alt_eq_some hlevel).2 (Bool.or_eq_false_iff.1 hshows).2
  | opt _ _ _ _ _ ih => exact ih (Expr.level_opt_eq_some hlevel).1 hshows
  | many _ _ _ _ _ _ h _ ih ih' | again _ _ _ _ _ _ h _ ih ih' =>
    have hturn := (Expr.level_many_eq_some hlevel).1
    rw [Node.wordTexts_append]
    intro hmarked
    rcases hmarked.of_append (h.rowLevel_eq hturn) with hin | hin
    · exact ih hturn hshows hin
    · exact ih' hlevel hshows hin

/-- What does not overrun a mark tries no token behind one. -/
theorem Tries.not_marked (hmark : mark ∈ Token.closing) (h : Tries goal here t read there)
    (hlevel : goal.whole.level n = some m)
    (hover : goal.whole.overrunsBy (Rule.overrunsTo mark d) mark n = false) :
    ¬ Marked mark n (Node.wordTexts read) := by
  induction h generalizing n m d with
  | token => exact not_marked_nil
  | @rule r _ _ _ _ h ih =>
    rcases Nat.eq_zero_or_pos n with rfl | hpos
    · rw [Goal.whole, Expr.overrunsBy_rule] at hover
      cases d with
      | zero =>
        rw [Rule.overrunsTo, ← Rule.shows_body hmark] at hover
        exact ih (r.level_body 0) (Expr.overrunsBy_eq_false_of_shows hover)
      | succ d => exact ih (r.level_body 0) hover
    · obtain ⟨k, hk, -⟩ := h.rowLevel (r.level_body 0)
      exact not_marked_of_pos hpos hk
  | seqFirst _ ih =>
    obtain ⟨k, hfirst, -⟩ := Expr.level_seq_eq_some hlevel
    simp only [Goal.whole, Expr.overrunsBy, Bool.or_eq_false_iff] at hover
    exact ih hfirst hover.1.1
  | seqSecond h _ ih =>
    obtain ⟨k, hfirst, hsecond⟩ := Expr.level_seq_eq_some hlevel
    simp only [Goal.whole, Expr.overrunsBy, Bool.or_eq_false_iff, hfirst, Option.getD_some]
      at hover
    rw [Node.wordTexts_append]
    intro hmarked
    rcases hmarked.of_append (h.rowLevel_eq hfirst) with hin | hin
    · exact h.not_marked hmark hfirst hover.1.2 hin
    · exact ih hsecond hover.2 hin
  | altFirst _ ih =>
    exact ih (Expr.level_alt_eq_some hlevel).1 (Bool.or_eq_false_iff.1 hover).1
  | altSecond _ _ ih =>
    exact ih (Expr.level_alt_eq_some hlevel).2 (Bool.or_eq_false_iff.1 hover).2
  | opt _ ih => exact ih (Expr.level_opt_eq_some hlevel).1 hover
  | ahead _ ih =>
    obtain ⟨⟨k, hbody⟩, -⟩ := Expr.level_ahead_eq_some hlevel
    exact ih hbody hover
  | manyFirst _ ih | againFirst _ ih =>
    exact ih (Expr.level_many_eq_some hlevel).1 (Bool.or_eq_false_iff.1 hover).1
  | manyMore h _ ih | againMore h _ ih =>
    have hturn := (Expr.level_many_eq_some hlevel).1
    rw [Node.wordTexts_append]
    intro hmarked
    rcases hmarked.of_append (h.rowLevel_eq hturn) with hin | hin
    · exact h.not_marked hmark hturn (Bool.or_eq_false_iff.1 hover).2 hin
    · exact ih hlevel hover hin

/-- What shows no mark tries none outside of all brackets. -/
theorem Tries.not_shown (hmark : mark ∈ Token.closing) (h : Tries goal here mark read there)
    (hlevel : goal.whole.level n = some m) (hshows : goal.whole.shows mark n = false)
    (hread : Parse.rowLevel n (Node.wordTexts read) = some k) : tokenLevel k mark ≠ some 0 := by
  induction h generalizing n m with
  | token =>
    obtain rfl := Option.some.inj hread
    intro hzero
    exact of_decide_eq_false hshows ⟨rfl, hzero⟩
  | @rule r _ _ _ _ h ih =>
    rcases Nat.eq_zero_or_pos n with rfl | hpos
    · rw [Goal.whole, Expr.shows_rule, ← Rule.shows_body hmark] at hshows
      exact ih hmark (r.level_body 0) hshows hread
    · -- Inside of a bracket that stays open, nothing is outside of all brackets.
      obtain ⟨l, hl, htoken⟩ := h.rowLevel (r.level_body 0)
      obtain ⟨o, ho⟩ := Option.ne_none_iff_exists'.1 htoken
      have hadd := rowLevel_add hl n
      rw [Nat.zero_add, hread] at hadd
      obtain rfl := Option.some.inj hadd
      rw [tokenLevel_add ho n]
      intro hzero
      have hsum := Option.some.inj hzero
      omega
  | seqFirst _ ih =>
    obtain ⟨l, hfirst, -⟩ := Expr.level_seq_eq_some hlevel
    exact ih hmark hfirst (Bool.or_eq_false_iff.1 hshows).1 hread
  | seqSecond h _ ih =>
    obtain ⟨l, hfirst, hsecond⟩ := Expr.level_seq_eq_some hlevel
    have hshows' := (Bool.or_eq_false_iff.1 hshows).2
    rw [hfirst, Option.getD_some] at hshows'
    rw [Node.wordTexts_append, rowLevel_append (h.rowLevel_eq hfirst)] at hread
    exact ih hmark hsecond hshows' hread
  | altFirst _ ih =>
    exact ih hmark (Expr.level_alt_eq_some hlevel).1 (Bool.or_eq_false_iff.1 hshows).1 hread
  | altSecond _ _ ih =>
    exact ih hmark (Expr.level_alt_eq_some hlevel).2 (Bool.or_eq_false_iff.1 hshows).2 hread
  | opt _ ih => exact ih hmark (Expr.level_opt_eq_some hlevel).1 hshows hread
  | ahead _ ih =>
    obtain ⟨⟨l, hbody⟩, -⟩ := Expr.level_ahead_eq_some hlevel
    exact ih hmark hbody hshows hread
  | manyFirst _ ih | againFirst _ ih =>
    exact ih hmark (Expr.level_many_eq_some hlevel).1 hshows hread
  | manyMore h _ ih | againMore h _ ih =>
    have hturn := (Expr.level_many_eq_some hlevel).1
    rw [Node.wordTexts_append, rowLevel_append (h.rowLevel_eq hturn)] at hread
    exact ih hmark hlevel hshows hread

/-- In front of a semicolon no rule goes astray behind balanced words, if it shows none. -/
theorem not_astray_of_not_shown {words : List (List Char)} {r : Rule} {s : List Char}
    (hwords : rowLevel 0 words = some 0) (hshows : r.shows (.punctuator .semi) = false) :
    ¬ Astray ⟨words, [], ';' :: s⟩ [] (.once (.rule r)) here := by
  refine not_astray_of_lone (lone_semi s) fun nodes there hread htries => ?_
  rw [hread] at hwords
  exact htries.not_shown (by decide) rfl (Expr.shows_rule_eq_false hshows 0) hwords rfl

/-- A row without a semicolon outside of all brackets goes on behind balanced words with none. -/
theorem width?_semi_eq_none {words more : List (List Char)} {u : List Char}
    (h : ¬ Marked (.punctuator .semi) 0 (words ++ u :: more)) (hwords : rowLevel 0 words = some 0)
    (hu : IsTokenText u) : (Token.punctuator .semi).width? u = none := by
  by_contra hread
  obtain ⟨n, hn⟩ := Option.ne_none_iff_exists'.1 hread
  obtain ⟨⟨r, rfl⟩, rfl, -⟩ := width?_punctuator_eq_some.1 hn
  obtain ⟨t, -, hwidth⟩ := hu
  obtain rfl := (lone_semi r).eq hwidth
  rw [hn] at hwidth
  obtain rfl : r = [] := by simpa using hwidth
  exact h ⟨words, ⟨more, by simp; rfl⟩, by rw [rowLevel_append hwords]; rfl⟩

/-! ## The first word -/

/-- What reads no word may match without one. -/
theorem Reads.nullable_of_wordTexts (h : Reads goal here (some (nodes, stop)))
    (hin : goal.expr.inner = true) (hnil : Node.wordTexts nodes = []) :
    goal.whole.nullable = true := by
  induction h using Reads.match_induction with
  | nothing | noOpt | noMany | ahead | enough | opt | many | again => rfl
  | token t here k hk =>
    rw [Node.wordTexts_leaf (Expr.inner_token_iff.1 hin)] at hnil
    cases hnil
  | rule r here nodes stop h ih =>
    rw [Node.wordTexts_branch h.ne_nil_of_rule] at hnil
    have hnull := ih (Rule.inner_body (Expr.inner_rule_iff.1 hin)) hnil
    rw [Goal.whole, r.nullable_body] at hnull
    cases hnull
  | seq e f _ _ _ _ _ _ _ ih ih' =>
    obtain ⟨hin₁, hin₂⟩ := Bool.and_eq_true_iff.1 hin
    rw [Node.wordTexts_append] at hnil
    obtain ⟨hnil₁, hnil₂⟩ := List.append_eq_nil_iff.1 hnil
    exact Bool.and_eq_true_iff.2 ⟨ih hin₁ hnil₁, ih' hin₂ hnil₂⟩
  | first e f _ _ _ _ ih =>
    exact Bool.or_eq_true_iff.2 (.inl (ih (Bool.and_eq_true_iff.1 hin).1 hnil))
  | second e f _ _ _ _ _ ih =>
    exact Bool.or_eq_true_iff.2 (.inr (ih (Bool.and_eq_true_iff.1 hin).2 hnil))

lemma head_append_ne {u : List Char} {words more : List (List Char)}
    (h : words.head? ≠ some u) (h' : words = [] → more.head? ≠ some u) :
    (words ++ more).head? ≠ some u := by
  cases words with
  | nil => exact h' rfl
  | cons v words => exact h

/-- The first word that is read is none that the goal does not begin with. -/
theorem Reads.head_ne (ht : t ∈ Token.landmarks) (h : Reads goal here (some (nodes, stop)))
    (hin : goal.expr.inner = true) (hopens : goal.expr.opens t = false) :
    (Node.wordTexts nodes).head? ≠ some t.spelling := by
  induction h using Reads.match_induction with
  | nothing | noOpt | noMany | ahead | enough => nofun
  | token other here k hk =>
    have ho := Expr.inner_token_iff.1 hin
    rw [Node.wordTexts_leaf ho]
    intro hhead
    have hother := Token.eq_of_take_eq_spelling ht ho hk (Option.some.inj hhead)
    exact of_decide_eq_false hopens hother
  | rule r here nodes stop h ih =>
    rw [Node.wordTexts_branch h.ne_nil_of_rule]
    exact ih (Rule.inner_body (Expr.inner_rule_iff.1 hin)) ((Rule.opens_body ht r).trans hopens)
  | seq e f _ _ _ _ _ h _ ih ih' =>
    obtain ⟨hin₁, hin₂⟩ := Bool.and_eq_true_iff.1 hin
    obtain ⟨hfirst, hsecond⟩ := Bool.or_eq_false_iff.1 hopens
    rw [Node.wordTexts_append]
    refine head_append_ne (ih hin₁ hfirst) fun hnil => ih' hin₂ ?_
    have hnull : e.nullable = true := h.nullable_of_wordTexts hin₁ hnil
    rwa [hnull, Bool.true_and] at hsecond
  | first e f _ _ _ _ ih =>
    exact ih (Bool.and_eq_true_iff.1 hin).1 (Bool.or_eq_false_iff.1 hopens).1
  | second e f _ _ _ _ _ ih =>
    exact ih (Bool.and_eq_true_iff.1 hin).2 (Bool.or_eq_false_iff.1 hopens).2
  | opt _ _ _ _ _ ih => exact ih hin hopens
  | many _ _ _ _ _ _ _ _ ih ih' | again _ _ _ _ _ _ _ _ ih ih' =>
    rw [Node.wordTexts_append]
    exact head_append_ne (ih hin hopens) fun _ => ih' hin hopens

/-- The same holds of the words in front of a token that is tried. -/
theorem Tries.head_ne {other : Token} (ht : t ∈ Token.landmarks)
    (h : Tries goal here other read there) (hin : goal.expr.inner = true)
    (hopens : goal.expr.opens t = false) :
    (Node.wordTexts read).head? ≠ some t.spelling := by
  induction h with
  | token => nofun
  | @rule r _ _ _ _ _ ih =>
    exact ih (Rule.inner_body (Expr.inner_rule_iff.1 hin)) ((Rule.opens_body ht r).trans hopens)
  | seqFirst _ ih =>
    exact ih (Bool.and_eq_true_iff.1 hin).1 (Bool.or_eq_false_iff.1 hopens).1
  | @seqSecond e _ _ _ _ _ _ _ h _ ih =>
    obtain ⟨hin₁, hin₂⟩ := Bool.and_eq_true_iff.1 hin
    obtain ⟨hfirst, hsecond⟩ := Bool.or_eq_false_iff.1 hopens
    rw [Node.wordTexts_append]
    refine head_append_ne (h.head_ne ht hin₁ hfirst) fun hnil => ih hin₂ ?_
    have hnull : e.nullable = true := h.nullable_of_wordTexts hin₁ hnil
    rwa [hnull, Bool.true_and] at hsecond
  | altFirst _ ih => exact ih (Bool.and_eq_true_iff.1 hin).1 (Bool.or_eq_false_iff.1 hopens).1
  | altSecond _ _ ih => exact ih (Bool.and_eq_true_iff.1 hin).2 (Bool.or_eq_false_iff.1 hopens).2
  | opt _ ih | ahead _ ih | manyFirst _ ih | againFirst _ ih => exact ih hin hopens
  | manyMore h _ ih | againMore h _ ih =>
    rw [Node.wordTexts_append]
    exact head_append_ne (h.head_ne ht hin hopens) fun _ => ih hin hopens

end
end CTree.Parse
