import CTree.Lexical.Keyword

/-!
# Identifiers, constants and string literals

An identifier is a word that is not reserved. A constant is a number or a
character in single quotes. In quotes a backslash takes the next character with
it, and a line end that follows no backslash is refused.
-/
namespace CTree.Lexical

def identifier : Pattern :=
  .inOrder [.absent reserved, .one isWordStart, .many (.one isWordPart)]

def digits : Pattern := .oneOrMore (.one isDigit)

def fractional : Pattern :=
  .alt (.inOrder [.opt digits, .text ".", digits]) (.seq digits (.text "."))

def exponent : Pattern := .inOrder [.oneOf "eE", .opt (.oneOf "+-"), digits]

/-- A point or an exponent makes a number a floating one. -/
def floatingConstant : Pattern :=
  .seq (.alt (.seq fractional (.opt exponent)) (.seq digits exponent)) (.opt (.oneOf "flFL"))

/-- Hexadecimal, binary or decimal. A leading zero is a digit like any other. -/
def integerConstant : Pattern :=
  .seq
    (.firstOf [
      .inOrder [.text "0", .oneOf "xX", .oneOrMore (.one isHexDigit)],
      .inOrder [.text "0", .oneOf "bB", .oneOrMore (.one isBinaryDigit)],
      digits])
    (.opt (.oneOrMore (.oneOf "uUlL")))

/-- The letters that may stand in front of an opening quote. -/
def encodingMark : Pattern := .firstOf [.text "u8", .text "u", .text "U", .text "L"]

def escapeSequence : Pattern := .seq (.text "\\") .any

/-- One character between quotes of the given kind, or an escape sequence. -/
def quoted (quote : Char) : Pattern :=
  .alt escapeSequence (.one fun c => !(c = quote || c = '\\' || isLineEnd c))

def characterConstant : Pattern :=
  .inOrder [.opt encodingMark, .text "'", .oneOrMore (quoted '\''), .text "'"]

def constant : Pattern := .firstOf [floatingConstant, integerConstant, characterConstant]

def stringLiteral : Pattern :=
  .inOrder [.opt encodingMark, .text "\"", .many (quoted '\"'), .text "\""]

end CTree.Lexical
