import CTree.Proofs.LayoutSimulation
import CTree.Proofs.LoneToken
import Mathlib.Data.Nat.PSub

/-!
# The level of brackets

What a rule reads has its parentheses, brackets and braces in pairs, because every
alternative of its body has. A closing one is therefore tried only inside of a pair that
was opened by the same rule: behind balanced words no rule asks for one.
-/
namespace CTree.Grammar
open CTree.Lexical

/-- The level behind a token. Below the lowest level nothing can be closed. -/
def tokenLevel (n : Nat) : Token → Option Nat
  | .punctuator .leftParen | .punctuator .leftBracket | .punctuator .leftBrace => some (n + 1)
  | .punctuator .rightParen | .punctuator .rightBracket | .punctuator .rightBrace => n.ppred
  | _ => some n

lemma ppred_add {n m : Nat} (h : n.ppred = some m) (k : Nat) :
    (n + k).ppred = some (m + k) := by
  rw [Nat.ppred_eq_some] at h ⊢
  omega

theorem tokenLevel_add {n m : Nat} {t : Token} (h : tokenLevel n t = some m) (k : Nat) :
    tokenLevel (n + k) t = some (m + k) := by
  unfold tokenLevel at h ⊢
  split at h <;> first | exact ppred_add h k | exact congrArg some (by cases h; omega)

namespace Expr

/-- The level behind a match, if it is the same for all of them. A rule ends at the level
at which it begins, and so does each turn of a repetition. -/
def level (n : Nat) : Expr Rule → Option Nat
  | nothing | rule _ => some n
  | token t => tokenLevel n t
  | seq e f => (e.level n).bind fun m => f.level m
  | alt e f => if e.level n = f.level n then e.level n else none
  | opt e | many e => if e.level n = some n then some n else none
  | ahead e => (e.level n).map fun _ => n

variable {e f : Expr Rule} {n m : Nat}

theorem level_seq_eq_some (h : (seq e f).level n = some m) :
    ∃ k, e.level n = some k ∧ f.level k = some m :=
  Option.bind_eq_some_iff.1 h

theorem level_alt_eq_some (h : (alt e f).level n = some m) :
    e.level n = some m ∧ f.level n = some m := by
  rw [level] at h
  split at h
  · exact ⟨h, by rw [← h]; exact (Eq.symm ‹_›)⟩
  · cases h

theorem level_opt_eq_some (h : (opt e).level n = some m) : e.level n = some n ∧ n = m := by
  rw [level] at h
  split at h
  · exact ⟨‹_›, Option.some.inj h⟩
  · cases h

theorem level_many_eq_some (h : (many e).level n = some m) : e.level n = some n ∧ n = m :=
  level_opt_eq_some h

theorem level_ahead_eq_some (h : (ahead e).level n = some m) :
    (∃ k, e.level n = some k) ∧ n = m := by
  obtain ⟨k, hk, hm⟩ := Option.map_eq_some_iff.1 h
  exact ⟨⟨k, hk⟩, hm⟩

/-- What is balanced at one level is balanced further inside. -/
theorem level_add (h : e.level n = some m) (k : Nat) : e.level (n + k) = some (m + k) := by
  induction e generalizing n m with
  | nothing | rule _ =>
    obtain rfl := Option.some.inj h
    rfl
  | token t =>
    exact tokenLevel_add h k
  | seq e f ihe ihf =>
    obtain ⟨l, he, hf⟩ := level_seq_eq_some h
    rw [level, ihe he, Option.bind_some, ihf hf]
  | alt e f ihe ihf =>
    obtain ⟨he, hf⟩ := level_alt_eq_some h
    rw [level, ihe he, ihf hf, if_pos rfl]
  | opt e ih =>
    obtain ⟨he, rfl⟩ := level_opt_eq_some h
    rw [level, ih he, if_pos rfl]
  | many e ih =>
    obtain ⟨he, rfl⟩ := level_many_eq_some h
    rw [level, ih he, if_pos rfl]
  | ahead e ih =>
    obtain ⟨⟨l, he⟩, rfl⟩ := level_ahead_eq_some h
    rw [level, ih he, Option.map_some]

end Expr

/-- Every rule is balanced, at any level. -/
theorem Rule.level_body (r : Rule) (n : Nat) : r.body.level n = some n := by
  have hall : ∀ r ∈ all, r.body.level 0 = some 0 := by decide +kernel
  have hlevel := Expr.level_add (hall r (mem_all r)) n
  rwa [Nat.zero_add] at hlevel

end CTree.Grammar

namespace CTree.Parse
open CTree.Grammar CTree.Lexical CTree.Text

/-- The level behind a word. -/
def wordLevel (n : Nat) : List Char → Option Nat
  | ['('] | ['['] | ['\x7b'] => some (n + 1)
  | [')'] | [']'] | ['\x7d'] => n.ppred
  | _ => some n

/-- The level behind words in a row. -/
def rowLevel (n : Nat) (words : List (List Char)) : Option Nat := words.foldlM wordLevel n

theorem rowLevel_cons (n : Nat) (u : List Char) (words : List (List Char)) :
    rowLevel n (u :: words) = (wordLevel n u).bind fun m => rowLevel m words := rfl

theorem rowLevel_append {n m : Nat} {words : List (List Char)} (h : rowLevel n words = some m)
    (more : List (List Char)) : rowLevel n (words ++ more) = rowLevel m more := by
  rw [rowLevel, List.foldlM_append]
  change (rowLevel n words).bind _ = _
  rw [h]
  rfl

theorem exists_rowLevel_front {n m : Nat} {front words : List (List Char)}
    (hpre : front <+: words) (h : rowLevel n words = some m) : ∃ k, rowLevel n front = some k := by
  obtain ⟨rest, rfl⟩ := hpre
  rw [rowLevel, List.foldlM_append] at h
  obtain ⟨k, hk, -⟩ := Option.bind_eq_some_iff.1 h
  exact ⟨k, hk⟩

theorem wordLevel_add {n m : Nat} {u : List Char} (h : wordLevel n u = some m) (k : Nat) :
    wordLevel (n + k) u = some (m + k) := by
  unfold wordLevel at h ⊢
  split at h <;> first | exact ppred_add h k | exact congrArg some (by cases h; omega)

/-- A row that can be put down at one level can be put down further inside. -/
theorem rowLevel_add {n m : Nat} {words : List (List Char)} (h : rowLevel n words = some m)
    (k : Nat) : rowLevel (n + k) words = some (m + k) := by
  induction words generalizing n with
  | nil =>
    obtain rfl := Option.some.inj h
    rfl
  | cons u words ih =>
    rw [rowLevel_cons] at h ⊢
    obtain ⟨l, hu, hwords⟩ := Option.bind_eq_some_iff.1 h
    rw [wordLevel_add hu, Option.bind_some, ih hwords]

/-- A bracket is read from no other text, and by no other token. -/
theorem wordLevel_take {t : Token} {s : List Char} {k : Nat} (ht : t ≠ .endOfInput)
    (h : t.width? s = some k) (n : Nat) : wordLevel n (s.take k) = tokenLevel n t := by
  by_cases hp : ∃ p, t = .punctuator p
  · obtain ⟨p, rfl⟩ := hp
    obtain ⟨⟨r, rfl⟩, rfl, -⟩ := width?_punctuator_eq_some.1 h
    rw [List.take_left]
    cases p <;> rfl
  · obtain ⟨c, r, rfl, hc⟩ := head_of_width? ht h
    have hnot : ∀ d ∈ "()[]\x7b\x7d".toList, (c :: r).take k ≠ [d] := by
      intro d hd heq
      have hall : ∀ d ∈ "()[]\x7b\x7d".toList,
          isWordPart d = false ∧ d ∉ ['.', '\'', '\"'] := by decide
      cases k with
      | zero => cases heq
      | succ k =>
        obtain ⟨rfl, -⟩ := List.cons.inj heq
        obtain ⟨p, rfl, -⟩ := exists_punctuator hc (hall c hd).1 (hall c hd).2
        exact hp ⟨p, rfl⟩
    have hword : wordLevel n ((c :: r).take k) = some n := by
      unfold wordLevel
      split <;> first | rfl | exact absurd ‹_› (hnot _ (by decide))
    have htoken : tokenLevel n t = some n := by
      unfold tokenLevel
      split <;> first | rfl | exact absurd ⟨_, rfl⟩ hp
    rw [hword, htoken]

/-- A row that is balanced goes on behind balanced words with no closing parenthesis. -/
theorem width?_rightParen_eq_none {words more : List (List Char)} {u : List Char}
    (h : rowLevel 0 (words ++ u :: more) = some 0) (hwords : rowLevel 0 words = some 0)
    (hu : IsTokenText u) : (Token.punctuator .rightParen).width? u = none := by
  by_contra hread
  obtain ⟨n, hn⟩ := Option.ne_none_iff_exists'.1 hread
  obtain ⟨⟨r, rfl⟩, -⟩ := width?_punctuator_eq_some.1 hn
  obtain ⟨t, ht, hwidth⟩ := hu
  obtain rfl := (lone_rightParen r).eq hwidth
  have hclosed := wordLevel_take ht hwidth 0
  rw [List.take_length] at hclosed
  rw [rowLevel_append hwords, rowLevel_cons, hclosed] at h
  cases h

section
variable {goal : Goal} {here there stop : Cursor} {t : Token} {nodes : List Node} {n m : Nat}

/-- The words that were read end at the level of the expression. -/
theorem Reads.rowLevel_eq (h : Reads goal here (some (nodes, stop)))
    (hlevel : goal.whole.level n = some m) : rowLevel n (Node.wordTexts nodes) = some m := by
  induction h using Reads.match_induction generalizing n m with
  | nothing => exact hlevel
  | token t here k hk =>
    by_cases ht : t = .endOfInput
    · subst ht
      exact hlevel
    · rw [Node.wordTexts_leaf ht]
      show (wordLevel n (here.rest.take k)).bind some = some m
      rw [wordLevel_take ht hk, Option.bind_fun_some]
      exact hlevel
  | rule r here nodes stop h ih =>
    obtain rfl := Option.some.inj hlevel
    rw [Node.wordTexts_branch h.ne_nil_of_rule]
    exact ih (r.level_body n)
  | seq _ _ _ _ _ _ _ _ _ ih ih' =>
    obtain ⟨k, hfirst, hsecond⟩ := Expr.level_seq_eq_some hlevel
    rw [Node.wordTexts_append, rowLevel_append (ih hfirst), ih' hsecond]
  | first _ _ _ _ _ _ ih => exact ih (Expr.level_alt_eq_some hlevel).1
  | second _ _ _ _ _ _ _ ih => exact ih (Expr.level_alt_eq_some hlevel).2
  | opt _ _ _ _ _ ih =>
    obtain ⟨hbody, rfl⟩ := Expr.level_opt_eq_some hlevel
    exact ih hbody
  | noOpt | noMany | enough =>
    obtain ⟨-, rfl⟩ := Expr.level_opt_eq_some hlevel
    rfl
  | ahead =>
    obtain ⟨-, rfl⟩ := Expr.level_ahead_eq_some hlevel
    rfl
  | many _ _ _ _ _ _ _ _ ih ih' | again _ _ _ _ _ _ _ _ ih ih' =>
    have hturn := (Expr.level_many_eq_some hlevel).1
    rw [Node.wordTexts_append, rowLevel_append (ih hturn), ih' hlevel]

/-- A token is tried only where it has a level: no bracket is closed that is not open. -/
theorem Tries.rowLevel (h : Tries goal here t nodes there) (hlevel : goal.whole.level n = some m) :
    ∃ k, rowLevel n (Node.wordTexts nodes) = some k ∧ tokenLevel k t ≠ none := by
  induction h generalizing n m with
  | token => exact ⟨n, rfl, by rw [show tokenLevel n _ = some m from hlevel]; nofun⟩
  | @rule r _ _ _ _ _ ih => exact ih (r.level_body n)
  | seqFirst _ ih =>
    obtain ⟨k, hfirst, -⟩ := Expr.level_seq_eq_some hlevel
    exact ih hfirst
  | seqSecond hreads _ ih =>
    obtain ⟨k, hfirst, hsecond⟩ := Expr.level_seq_eq_some hlevel
    rw [Node.wordTexts_append, rowLevel_append (hreads.rowLevel_eq hfirst)]
    exact ih hsecond
  | altFirst _ ih => exact ih (Expr.level_alt_eq_some hlevel).1
  | altSecond _ _ ih => exact ih (Expr.level_alt_eq_some hlevel).2
  | opt _ ih => exact ih (Expr.level_opt_eq_some hlevel).1
  | ahead _ ih =>
    obtain ⟨⟨k, hbody⟩, -⟩ := Expr.level_ahead_eq_some hlevel
    exact ih hbody
  | manyFirst _ ih | againFirst _ ih => exact ih (Expr.level_many_eq_some hlevel).1
  | manyMore hreads _ ih | againMore hreads _ ih =>
    have hturn := (Expr.level_many_eq_some hlevel).1
    rw [Node.wordTexts_append, rowLevel_append (hreads.rowLevel_eq hturn)]
    exact ih hlevel

/-- In front of a mark a reading goes astray only if it tries the mark behind the words. -/
theorem not_astray_of_lone {words : List (List Char)} {final : List Char} (hlone : Lone t final)
    (hno : ∀ nodes there, words = Node.wordTexts nodes → ¬ Tries goal here t nodes there) :
    ¬ Astray ⟨words, [], final⟩ [] goal here := by
  rintro ⟨other, nodes, there, ho, htries, -, hread, hsay⟩
  have hmark : other = t := by
    by_contra hne
    exact hsay ⟨barren_nil other ho, hlone other hne⟩
  rw [hmark] at htries
  exact hno nodes there hread htries

/-- In front of a closing mark no rule goes astray behind balanced words. -/
theorem not_astray_of_closing {words : List (List Char)} {r : Rule} {final : List Char}
    (hlone : Lone t final) (hclose : tokenLevel 0 t = none) (hwords : rowLevel 0 words = some 0) :
    ¬ Astray ⟨words, [], final⟩ [] (.once (.rule r)) here := by
  refine not_astray_of_lone hlone fun nodes there hread htries => ?_
  obtain ⟨k, hlevel, hopen⟩ := htries.rowLevel (n := 0) rfl
  rw [← hread] at hlevel
  obtain rfl := Option.some.inj (hwords.symm.trans hlevel)
  exact hopen hclose

theorem not_astray_of_balanced {words : List (List Char)} {r : Rule} {s : List Char}
    (hwords : rowLevel 0 words = some 0) :
    ¬ Astray ⟨words, [], ')' :: s⟩ [] (.once (.rule r)) here :=
  not_astray_of_closing (lone_rightParen s) rfl hwords

end
end CTree.Parse
