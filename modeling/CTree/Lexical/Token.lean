import CTree.Lexical.Gap
import CTree.Lexical.Literal
import CTree.Lexical.Punctuator

/-!
# Tokens

The words of a C source, with the end of the text as a token of its own. A token
is read at the head of a text by its pattern.
-/
namespace CTree.Lexical

inductive Token
  | endOfInput
  | keyword (k : Keyword)
  | identifier
  | constant
  | stringLiteral
  | punctuator (p : Punctuator)
  deriving Repr, DecidableEq

namespace Token

/-- All tokens but the end of the text, in the order in which they are listed. -/
def words : List Token :=
  Keyword.all.map keyword ++ [identifier, constant, stringLiteral] ++
    Punctuator.all.map punctuator

theorem mem_words (t : Token) : t = endOfInput ∨ t ∈ words := by
  cases t <;> simp [words, Keyword.mem_all, Punctuator.mem_all]

def name : Token → String
  | endOfInput => "EOI"
  | keyword k => k.name
  | identifier => "Identifier"
  | constant => "Constant"
  | stringLiteral => "StringLiteral"
  | punctuator p => p.name

def pattern : Token → Pattern
  | endOfInput => .absent .any
  | keyword k => k.pattern
  | identifier => Lexical.identifier
  | constant => Lexical.constant
  | stringLiteral => Lexical.stringLiteral
  | punctuator p => p.pattern

/-- The number of characters of the token at the head of a text, if it stands there. -/
def width? (t : Token) (s : List Char) : Option Nat := t.pattern.width? s

@[simp] theorem width?_endOfInput_nil : endOfInput.width? [] = some 0 := rfl

@[simp] theorem width?_endOfInput_cons (c : Char) (s : List Char) :
    endOfInput.width? (c :: s) = none := rfl

end Token
end CTree.Lexical
