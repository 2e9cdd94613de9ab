import CTree.Proofs.GrammarShape
import CTree.Proofs.TokenBoundary

/-!
# What stands beside an identifier and a point

An identifier and a point may take a part of another token. No harm comes of it: no
part of the grammar that may end with one of them stands in front of a part that may
begin with a token that would then be read. Which rules begin and end how is found
by going over all rules until nothing is added.
-/
namespace CTree.Lexical.Token

/-- The tokens that may take a part of another one. -/
def snagging : List Token := [identifier, punctuator .dot]

theorem mem_snagging_of_snags {t : Token} {c : Char} (h : t.snags c = true) : t ∈ snagging := by
  rcases snag_cases h with ⟨rfl, -⟩ | ⟨rfl, -⟩ <;> decide

theorem mem_snagging_of_clash {t other : Token} (h : t.clash other = true) : t ∈ snagging := by
  unfold clash at h
  split at h <;> first | decide | cases h

end CTree.Lexical.Token

namespace CTree.Grammar
open CTree.Lexical

namespace Expr

/-- Whether a token that clashes with the given one may be tried before a token was
read, where this is known of the rules. -/
def meetsBy (rules : Rule → Bool) (t : Token) : Expr Rule → Bool
  | nothing => false
  | token other => t.clash other
  | rule r => rules r
  | seq e f => e.meetsBy rules t || e.nullable && f.meetsBy rules t
  | alt e f => e.meetsBy rules t || f.meetsBy rules t
  | opt e | many e | ahead e => e.meetsBy rules t

/-- Whether a match may begin with a token of the class, where this is known of the rules. -/
def leadsBy (K : Token → Bool) (rules : Rule → Bool) : Expr Rule → Bool
  | nothing | ahead _ => false
  | token t => K t
  | rule r => rules r
  | seq e f => e.leadsBy K rules || e.nullable && f.leadsBy K rules
  | alt e f => e.leadsBy K rules || f.leadsBy K rules
  | opt e | many e => e.leadsBy K rules

/-- Whether a match may end with a token of the class, where this is known of the rules. -/
def endsBy (K : Token → Bool) (rules : Rule → Bool) : Expr Rule → Bool
  | nothing | ahead _ => false
  | token t => K t
  | rule r => rules r
  | seq e f => f.endsBy K rules || f.nullable && e.endsBy K rules
  | alt e f => e.endsBy K rules || f.endsBy K rules
  | opt e | many e => e.endsBy K rules

end Expr

namespace Rule

/-- Adds the rules that pass a test which asks for the rules known so far. -/
def sweep (test : (Rule → Bool) → Rule → Bool) (known : List Rule) : List Rule :=
  all.foldl (fun known r =>
    if !known.contains r && test known.contains r then r :: known else known) known

/-- Six sweeps are enough for the tests that are made of rules. -/
def swept (test : (Rule → Bool) → Rule → Bool) : List Rule :=
  (List.range 6).foldl (fun known _ => sweep test known) []

def meets (t : Token) (r : Rule) : Bool :=
  (swept fun rules r => r.body.meetsBy rules t).contains r

def leadsIn (K : Token → Bool) (r : Rule) : Bool :=
  (swept fun rules r => r.body.leadsBy K rules).contains r

def endsIn (K : Token → Bool) (r : Rule) : Bool :=
  (swept fun rules r => r.body.endsBy K rules).contains r

def ends (t : Token) (r : Rule) : Bool := r.endsIn (· = t)

end Rule

namespace Expr

/-- Whether a token that clashes with the given one may be tried before a token was read. -/
def meets (t : Token) (e : Expr Rule) : Bool := e.meetsBy (Rule.meets t) t

/-- Whether a token of the class may be the first one that is read. -/
def leadsIn (K : Token → Bool) (e : Expr Rule) : Bool := e.leadsBy K (Rule.leadsIn K)

/-- Whether a token of the class may be the last one that is read. -/
def endsIn (K : Token → Bool) (e : Expr Rule) : Bool := e.endsBy K (Rule.endsIn K)

/-- Whether the given token may be the last one that is read. -/
def ends (t : Token) (e : Expr Rule) : Bool := e.endsIn (· = t)

/-- Whether no part that may end with the token stands in front of one that meets it. -/
def apart (t : Token) : Expr Rule → Bool
  | nothing | token _ | rule _ => true
  | seq e f => e.apart t && f.apart t && !(e.ends t && f.meets t)
  | alt e f => e.apart t && f.apart t
  | opt e | ahead e => e.apart t
  | many e => e.apart t && !(e.ends t && e.meets t)

/-- Whether tokens that have snags are kept apart from what clashes with them. -/
def Apart (e : Expr Rule) : Prop := ∀ t ∈ Token.snagging, e.apart t = true

/-- Whether no part that may end in the first class stands in front of one that may begin in
the second. -/
def parts (K L : Token → Bool) : Expr Rule → Bool
  | nothing | token _ | rule _ => true
  | seq e f => e.parts K L && f.parts K L && !(e.endsIn K && f.leadsIn L)
  | alt e f => e.parts K L && f.parts K L
  | opt e | ahead e => e.parts K L
  | many e => e.parts K L && !(e.endsIn K && e.leadsIn L)

variable {e f : Expr Rule}

theorem Apart.seq (h : (e.seq f).Apart) : e.Apart ∧ f.Apart := by
  constructor
  · intro t ht
    have hboth := (Bool.and_eq_true_iff.1 (h t ht)).1
    exact (Bool.and_eq_true_iff.1 hboth).1
  · intro t ht
    have hboth := (Bool.and_eq_true_iff.1 (h t ht)).1
    exact (Bool.and_eq_true_iff.1 hboth).2

theorem Apart.alt (h : (e.alt f).Apart) : e.Apart ∧ f.Apart := by
  constructor
  · intro t ht
    exact (Bool.and_eq_true_iff.1 (h t ht)).1
  · intro t ht
    exact (Bool.and_eq_true_iff.1 (h t ht)).2

theorem Apart.many (h : e.many.Apart) : e.Apart :=
  fun t ht => (Bool.and_eq_true_iff.1 (h t ht)).1

/-- What meets a token that the part in front of it may end with has no place behind it. -/
theorem Apart.meets_eq_false {t : Token} (h : (e.seq f).Apart) (ht : t ∈ Token.snagging)
    (hends : e.ends t = true) : f.meets t = false := by
  have hno := (Bool.and_eq_true_iff.1 (h t ht)).2
  simpa [hends] using hno

/-- A repetition is one turn in front of the others. -/
theorem Apart.turn (h : e.many.Apart) : (e.seq e.many).Apart := by
  intro t ht
  have hmany := h t ht
  have hboth := Bool.and_eq_true_iff.1 hmany
  simp only [Expr.apart, Bool.and_eq_true]
  exact ⟨⟨hboth.1, hboth⟩, hboth.2⟩

theorem Apart.meets_again {t : Token} (h : e.many.Apart) (ht : t ∈ Token.snagging)
    (hends : e.ends t = true) : e.meets t = false :=
  h.turn.meets_eq_false ht hends

end Expr

namespace Rule

/-! ## All rules -/

theorem meets_body {t : Token} (h : t ∈ Token.snagging) (r : Rule) :
    r.body.meets t = r.meets t := by
  have hall : ∀ t ∈ Token.snagging, ∀ r ∈ all, r.body.meets t = r.meets t := by decide +kernel
  exact hall t h r (mem_all r)

theorem ends_body {t : Token} (h : t ∈ Token.snagging) (r : Rule) :
    r.body.ends t = r.ends t := by
  have hall : ∀ t ∈ Token.snagging, ∀ r ∈ all, r.body.ends t = r.ends t := by decide +kernel
  exact hall t h r (mem_all r)

theorem apart_body (r : Rule) : r.body.Apart := by
  have hall : ∀ t ∈ Token.snagging, ∀ r ∈ all, r.body.apart t = true := by decide +kernel
  exact fun t ht => hall t ht r (mem_all r)

/-- What the rules show of two classes of tokens: how the bodies begin and end, and that no
token of the first class stands in front of one of the second. -/
structure Parted (K L : Token → Bool) : Prop where
  ends : ∀ r ∈ all, r.body.endsIn K = r.endsIn K
  leads : ∀ r ∈ all, r.body.leadsIn L = r.leadsIn L
  parts : ∀ r ∈ all, r.body.parts K L = true

/-- A token with a snag stands in front of none that clashes with it. -/
theorem parted_clash {t : Token} (h : t ∈ Token.snagging) : Parted (· = t) t.clash := by
  have hleads : ∀ t ∈ Token.snagging, ∀ r ∈ all, r.body.leadsIn t.clash = r.leadsIn t.clash := by
    decide +kernel
  have hparts : ∀ t ∈ Token.snagging, ∀ r ∈ all, r.body.parts (· = t) t.clash = true := by
    decide +kernel
  exact ⟨fun r _ => ends_body h r, hleads t h, hparts t h⟩

end Rule

namespace Expr
variable {t : Token} {e f : Expr Rule}

/-- What may be read first may be tried first. -/
theorem meets_of_leadsIn (ht : t ∈ Token.snagging) (h : e.leadsIn t.clash = true) :
    e.meets t = true := by
  have hrules : ∀ t ∈ Token.snagging, ∀ r ∈ Rule.all, r.leadsIn t.clash = true →
      r.meets t = true := by decide +kernel
  induction e with
  | nothing | ahead _ _ => cases h
  | token _ => exact h
  | rule r => exact hrules t ht r (Rule.mem_all r) h
  | seq e f ihe ihf =>
    refine Bool.or_eq_true_iff.2 ((Bool.or_eq_true_iff.1 h).imp ihe fun h => ?_)
    obtain ⟨hnull, hf⟩ := Bool.and_eq_true_iff.1 h
    exact Bool.and_eq_true_iff.2 ⟨hnull, ihf hf⟩
  | alt e f ihe ihf => exact Bool.or_eq_true_iff.2 ((Bool.or_eq_true_iff.1 h).imp ihe ihf)
  | opt e ih | many e ih => exact ih h

lemma not_followed_of_not_met (ht : t ∈ Token.snagging)
    (h : (!(e.ends t && f.meets t)) = true) :
    (!(e.endsIn (· = t) && f.leadsIn t.clash)) = true := by
  cases hends : e.ends t with
  | false => rw [show e.endsIn (· = t) = false from hends]; rfl
  | true =>
    rw [hends] at h
    cases hleads : f.leadsIn t.clash with
    | false => rw [Bool.and_false]; rfl
    | true =>
      rw [meets_of_leadsIn ht hleads] at h
      cases h

theorem Apart.parts (h : e.Apart) (ht : t ∈ Token.snagging) :
    e.parts (· = t) t.clash = true := by
  have htoken := h t ht
  clear h
  induction e with
  | nothing | token _ | rule _ => rfl
  | seq e f ihe ihf =>
    obtain ⟨hboth, hno⟩ := Bool.and_eq_true_iff.1 htoken
    obtain ⟨he, hf⟩ := Bool.and_eq_true_iff.1 hboth
    exact Bool.and_eq_true_iff.2 ⟨Bool.and_eq_true_iff.2 ⟨ihe he, ihf hf⟩,
      not_followed_of_not_met ht hno⟩
  | alt e f ihe ihf =>
    obtain ⟨he, hf⟩ := Bool.and_eq_true_iff.1 htoken
    exact Bool.and_eq_true_iff.2 ⟨ihe he, ihf hf⟩
  | opt e ih | ahead e ih => exact ih htoken
  | many e ih =>
    obtain ⟨he, hno⟩ := Bool.and_eq_true_iff.1 htoken
    exact Bool.and_eq_true_iff.2 ⟨ih he, not_followed_of_not_met ht hno⟩

end Expr
end CTree.Grammar
