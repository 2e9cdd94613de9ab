import CTree.Grammar.Rule

/-!
# Symbols of the grammar

What a reader can ask for at a place: a rule or a token. `Symbol.all` fixes the
order in which they are listed for a reader.
-/
namespace CTree.Grammar
open CTree.Lexical

inductive Symbol
  | rule (r : Rule)
  | token (t : Token)
  deriving Repr, DecidableEq

namespace Symbol

/-- All symbols: the end of the text, then the rules, then the other tokens. -/
def all : List Symbol :=
  token .endOfInput :: Rule.all.map rule ++ Token.words.map token

theorem mem_all (s : Symbol) : s ∈ all := by
  cases s with
  | rule r => simp [all, Rule.mem_all]
  | token t => rcases t.mem_words with rfl | h <;> simp [all, *]

def name : Symbol → String
  | rule r => r.name
  | token t => t.name

def ofName? (name : String) : Option Symbol := all.find? (·.name = name)

/-- What a message calls the symbol: a common punctuator is quoted, and the tokens
that have no fixed text have a name in words. -/
def description : Symbol → String
  | token .endOfInput => "end of input"
  | token .identifier => "identifier"
  | token .constant => "constant"
  | token .stringLiteral => "string literal"
  | token (.punctuator p) => if p ∈ quoted then s!"'{p.text}'" else p.name
  | s => s.name
where
  quoted : List Punctuator :=
    [.leftParen, .rightParen, .leftBracket, .rightBracket, .leftBrace, .rightBrace, .semi, .comma,
     .colon, .assign, .star]

end Symbol
end CTree.Grammar
