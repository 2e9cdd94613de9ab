import CTree.Lexical.Pattern

/-!
# Classes of characters

Letters and digits are those of ASCII: a character outside ASCII belongs to no
word. A line ends with a line feed, with a carriage return, or with both.
-/
namespace CTree.Lexical

def isDigit (c : Char) : Bool := '0' ≤ c && c ≤ '9'

def isBinaryDigit (c : Char) : Bool := c = '0' || c = '1'

def isHexDigit (c : Char) : Bool :=
  isDigit c || 'a' ≤ c && c ≤ 'f' || 'A' ≤ c && c ≤ 'F'

def isLetter (c : Char) : Bool := 'a' ≤ c && c ≤ 'z' || 'A' ≤ c && c ≤ 'Z'

/-- A character that may begin a word. -/
def isWordStart (c : Char) : Bool := isLetter c || c = '_'

/-- A character that may continue a word. -/
def isWordPart (c : Char) : Bool := isLetter c || isDigit c || c = '_'

def isLineEnd (c : Char) : Bool := c = '\n' || c = '\r'

/-- A line end, the pair of carriage return and line feed counting as one. -/
def lineEnd : Pattern := .firstOf [.text "\n", .text "\r\n", .text "\r"]

/-- Any character of the current line. -/
def inLine : Pattern := .one fun c => !isLineEnd c

/-- The end of a word: no character that would continue it follows. -/
def wordEnd : Pattern := .absent (.one isWordPart)

end CTree.Lexical
