import CTree.Lexical.CharClass

/-!
# What may stand between two tokens

White space, comments and preprocessor lines carry no meaning. A gap is any
sequence of them, and is taken as a whole.
-/
namespace CTree.Lexical

/-- White space; a backslash in front of a line end joins two lines. -/
def blank : Pattern := .alt (.oneOf " \t\r\n") (.seq (.text "\\") lineEnd)

/-- A comment up to its first closing mark. One that is not closed is no comment. -/
def blockComment : Pattern :=
  .inOrder [.text "/*", .many (.seq (.absent (.text "*/")) .any), .text "*/"]

/-- A comment up to the end of its line. -/
def lineComment : Pattern := .seq (.text "//") (.many inLine)

/-- A preprocessor line. A backslash in front of the line end continues it. -/
def directive : Pattern :=
  .seq (.text "#") (.many (.alt (.seq (.text "\\") lineEnd) inLine))

def comment : Pattern := .firstOf [blockComment, lineComment, directive]

def gap : Pattern := .seq (.many blank) (.many (.seq comment (.many blank)))

/-- The number of characters of the gap at the head of a text. A gap may be empty,
so there always is one. -/
def gapWidth (s : List Char) : Nat := (gap.width? s).getD 0

end CTree.Lexical
