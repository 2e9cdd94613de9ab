import CTree.Lexical.Token

/-!
# Grammar expressions

A rule of the grammar is described by an expression over tokens and rules. As
with patterns, choices are ordered and repetition is greedy. Between the parts of
a sequence, and between the turns of a repetition, a gap is skipped.

`++` puts expressions in a row, and `|||` chooses the first that matches.
-/
namespace CTree.Grammar
open CTree.Lexical

/-- Expressions over the tokens and over rules named by `R`. -/
inductive Expr (R : Type)
  /-- Takes nothing and always matches. -/
  | nothing
  | token (t : Token)
  | rule (r : R)
  | seq (first second : Expr R)
  | alt (first second : Expr R)
  | opt (body : Expr R)
  /-- As many times in a row as it matches, perhaps none. -/
  | many (body : Expr R)
  /-- Takes nothing, where the expression matches. -/
  | ahead (body : Expr R)
  deriving Repr, DecidableEq

namespace Expr
variable {R : Type}

instance : Append (Expr R) := ⟨seq⟩

instance : OrOp (Expr R) := ⟨alt⟩

@[simp] theorem append_eq_seq (e f : Expr R) : e ++ f = seq e f := rfl

@[simp] theorem or_eq_alt (e f : Expr R) : e ||| f = alt e f := rfl

def word (k : Keyword) : Expr R := token (.keyword k)

def punct (p : Punctuator) : Expr R := token (.punctuator p)

/-- Once and then as often as it matches. -/
def oneOrMore (e : Expr R) : Expr R := e ++ many e

/-- Once, and again after each separator that an item follows. -/
def separated (separator item : Expr R) : Expr R := item ++ many (separator ++ item)

def commaList (item : Expr R) : Expr R := separated (punct .comma) item

def parenthesised (e : Expr R) : Expr R := punct .leftParen ++ e ++ punct .rightParen

def bracketed (e : Expr R) : Expr R := punct .leftBracket ++ e ++ punct .rightBracket

def braced (e : Expr R) : Expr R := punct .leftBrace ++ e ++ punct .rightBrace

end Expr
end CTree.Grammar
