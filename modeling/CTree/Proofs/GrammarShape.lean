import CTree.Grammar.Rule
import Mathlib.Tactic

/-!
# The shape of the grammar

Properties of the grammar that can be read off its expressions, each a test on an
expression and a fact about the bodies of all rules. The later modules use the
facts and never look at a rule again.
-/
namespace CTree.Grammar
open CTree.Lexical

namespace Expr
variable {R : Type}

/-- Whether the expression may match without reading a token. Every rule reads one. -/
def nullable : Expr R → Bool
  | nothing | opt _ | many _ | ahead _ => true
  | token _ | rule _ => false
  | seq e f => e.nullable && f.nullable
  | alt e f => e.nullable || f.nullable

/-- Whether all tokens and rules of the expression are of the given kinds. -/
def all (tokens : Token → Bool) (rules : R → Bool) : Expr R → Bool
  | nothing => true
  | token t => tokens t
  | rule r => rules r
  | seq e f | alt e f => e.all tokens rules && f.all tokens rules
  | opt e | many e | ahead e => e.all tokens rules

/-- Whether the expression stays inside of a source: it never asks for the end. -/
def inner (e : Expr Rule) : Bool := e.all (· ≠ .endOfInput) (· ≠ .compilationUnit)

/-- Whether each turn of each repetition takes a character, and each part of a row
either takes one or may be skipped. -/
def steady : Expr Rule → Bool
  | nothing | token _ | rule _ => true
  | seq e f => e.steady && f.steady && (e.nullable || e.inner)
  | alt e f => e.steady && f.steady
  | opt e | ahead e => e.steady
  | many e => e.steady && e.inner && !e.nullable

/-- The rules that may be called before a token was read. -/
def leftRules : Expr Rule → List Rule
  | nothing | token _ => []
  | rule r => [r]
  | seq e f => e.leftRules ++ if e.nullable then f.leftRules else []
  | alt e f => e.leftRules ++ f.leftRules
  | opt e | many e | ahead e => e.leftRules

theorem inner_token_iff {t : Token} :
    (token t : Expr Rule).inner = true ↔ t ≠ .endOfInput := by
  simp [inner, all]

theorem inner_rule_iff {r : Rule} : (rule r).inner = true ↔ r ≠ .compilationUnit := by
  simp [inner, all]

end Expr

namespace Rule

theorem nullable_body (r : Rule) : r.body.nullable = false := by
  cases r <;> rfl

theorem inner_body {r : Rule} (h : r ≠ .compilationUnit) : r.body.inner = true := by
  cases r <;> first | rfl | exact absurd rfl h

theorem steady_body (r : Rule) : r.body.steady = true := by
  cases r <;> rfl

/-- The height of the tree of calls that read no token in between, down to a depth. -/
def heightTo : Nat → Rule → Nat
  | 0, _ => 0
  | depth + 1, r => (r.body.leftRules.map (heightTo depth)).foldr max 0 + 1

/-- The greatest number of rules that call each other before a token is read. -/
def height (r : Rule) : Nat := heightTo all.length r

theorem height_pos (r : Rule) : 0 < r.height := Nat.succ_pos _

theorem height_le (r : Rule) : r.height ≤ all.length := by
  have h : ∀ r ∈ all, r.height ≤ all.length := by decide +kernel
  exact h r (mem_all r)

/-- No rule calls itself before a token is read. -/
theorem height_lt {r r' : Rule} (h : r' ∈ r.body.leftRules) : r'.height < r.height := by
  have hall : ∀ r ∈ all, ∀ r' ∈ r.body.leftRules, r'.height < r.height := by decide +kernel
  exact hall r (mem_all r) r' h

end Rule
end CTree.Grammar
