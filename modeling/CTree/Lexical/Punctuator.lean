import CTree.Lexical.Pattern

/-!
# Punctuators

Each operator and separator of C is a token. One that begins a longer operator
is not read where the longer one stands: `+` is not read at the head of `+=`.
-/
namespace CTree.Lexical

inductive Punctuator
  | leftParen | rightParen | leftBracket | rightBracket | leftBrace | rightBrace | ellipsis | dot
  | arrow | question | colon | semi | comma | tilde | leftShiftAssign | rightShiftAssign
  | starAssign | divAssign | modAssign | plusAssign | minusAssign | andAssign | xorAssign
  | orAssign | leftShift | rightShift | lessEqual | greaterEqual | less | greater | equal
  | notEqual | assign | plusPlus | minusMinus | plus | minus | star | div | mod | andAnd | orOr
  | and | or | caret | not
  deriving Repr, DecidableEq

namespace Punctuator

/-- All punctuators, in the order in which they are listed. -/
def all : List Punctuator :=
  [.leftParen, .rightParen, .leftBracket, .rightBracket, .leftBrace, .rightBrace, .ellipsis, .dot,
   .arrow, .question, .colon, .semi, .comma, .tilde, .leftShiftAssign, .rightShiftAssign,
   .starAssign, .divAssign, .modAssign, .plusAssign, .minusAssign, .andAssign, .xorAssign,
   .orAssign, .leftShift, .rightShift, .lessEqual, .greaterEqual, .less, .greater, .equal,
   .notEqual, .assign, .plusPlus, .minusMinus, .plus, .minus, .star, .div, .mod, .andAnd, .orOr,
   .and, .or, .caret, .not]

theorem mem_all (p : Punctuator) : p ∈ all := by cases p <;> decide

/-- The name of the token, its characters, and the characters that may not follow. -/
structure Entry where
  name : String
  text : String
  notBefore : String

def entry : Punctuator → Entry
  | .leftParen => ⟨"LeftParen", "(", ""⟩
  | .rightParen => ⟨"RightParen", ")", ""⟩
  | .leftBracket => ⟨"LeftBracket", "[", ""⟩
  | .rightBracket => ⟨"RightBracket", "]", ""⟩
  | .leftBrace => ⟨"LeftBrace", "\x7b", ""⟩
  | .rightBrace => ⟨"RightBrace", "\x7d", ""⟩
  | .ellipsis => ⟨"Ellipsis", "...", ""⟩
  | .dot => ⟨"Dot", ".", ""⟩
  | .arrow => ⟨"Arrow", "->", ""⟩
  | .question => ⟨"Question", "?", ""⟩
  | .colon => ⟨"Colon", ":", ""⟩
  | .semi => ⟨"Semi", ";", ""⟩
  | .comma => ⟨"Comma", ",", ""⟩
  | .tilde => ⟨"Tilde", "~", ""⟩
  | .leftShiftAssign => ⟨"LeftShiftAssign", "<<=", ""⟩
  | .rightShiftAssign => ⟨"RightShiftAssign", ">>=", ""⟩
  | .starAssign => ⟨"StarAssign", "*=", ""⟩
  | .divAssign => ⟨"DivAssign", "/=", ""⟩
  | .modAssign => ⟨"ModAssign", "%=", ""⟩
  | .plusAssign => ⟨"PlusAssign", "+=", ""⟩
  | .minusAssign => ⟨"MinusAssign", "-=", ""⟩
  | .andAssign => ⟨"AndAssign", "&=", ""⟩
  | .xorAssign => ⟨"XorAssign", "^=", ""⟩
  | .orAssign => ⟨"OrAssign", "|=", ""⟩
  | .leftShift => ⟨"LeftShift", "<<", "="⟩
  | .rightShift => ⟨"RightShift", ">>", "="⟩
  | .lessEqual => ⟨"LessEqual", "<=", ""⟩
  | .greaterEqual => ⟨"GreaterEqual", ">=", ""⟩
  | .less => ⟨"Less", "<", "<="⟩
  | .greater => ⟨"Greater", ">", ">="⟩
  | .equal => ⟨"Equal", "==", ""⟩
  | .notEqual => ⟨"NotEqual", "!=", ""⟩
  | .assign => ⟨"Assign", "=", "="⟩
  | .plusPlus => ⟨"PlusPlus", "++", ""⟩
  | .minusMinus => ⟨"MinusMinus", "--", ""⟩
  | .plus => ⟨"Plus", "+", "+="⟩
  | .minus => ⟨"Minus", "-", "-=>"⟩
  | .star => ⟨"Star", "*", "="⟩
  | .div => ⟨"Div", "/", "="⟩
  | .mod => ⟨"Mod", "%", "="⟩
  | .andAnd => ⟨"AndAnd", "&&", ""⟩
  | .orOr => ⟨"OrOr", "||", ""⟩
  | .and => ⟨"And", "&", "&="⟩
  | .or => ⟨"Or", "|", "|="⟩
  | .caret => ⟨"Caret", "^", "="⟩
  | .not => ⟨"Not", "!", "="⟩

def name (p : Punctuator) : String := p.entry.name

def text (p : Punctuator) : String := p.entry.text

def pattern (p : Punctuator) : Pattern :=
  .seq (.text p.entry.text) (.absent (.oneOf p.entry.notBefore))

end Punctuator
end CTree.Lexical
