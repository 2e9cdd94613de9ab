/-!
# Patterns of characters

A pattern is tried at the head of a text. It takes the first alternative that
matches and repeats as long as it can, and never goes back on either choice.
`Pattern.width?` is the number of characters it takes, if it matches.
-/
namespace CTree.Lexical

inductive Pattern
  /-- Exactly these characters. -/
  | word (text : List Char)
  /-- One character of a class. -/
  | one (accepts : Char → Bool)
  | seq (first second : Pattern)
  | alt (first second : Pattern)
  /-- As many times in a row as it matches, perhaps none. -/
  | many (body : Pattern)
  /-- Takes nothing, where the pattern does not match. -/
  | absent (banned : Pattern)

namespace Pattern

/-- The number of characters taken by repeating a match until it fails. The first
text is a clock: each repetition that takes a character leaves at least as much
of it as of the text that is read. -/
def repeatWidth (width? : List Char → Option Nat) : List Char → List Char → Nat → Nat
  | [], _, total => total
  | _ :: clock, s, total =>
    match width? s with
    | none => total
    | some n => repeatWidth width? clock (s.drop n) (total + n)

def width? : Pattern → List Char → Option Nat
  | word text, s => if text.isPrefixOf s then some text.length else none
  | one _, [] => none
  | one accepts, c :: _ => if accepts c then some 1 else none
  | seq first second, s =>
    match first.width? s with
    | none => none
    | some n => (second.width? (s.drop n)).map (n + ·)
  | alt first second, s =>
    match first.width? s with
    | none => second.width? s
    | some n => some n
  | many body, s => some (repeatWidth body.width? s s 0)
  | absent banned, s => if (banned.width? s).isSome then none else some 0

/-- Takes nothing and always matches. -/
def nothing : Pattern := word []

/-- Any character. -/
def any : Pattern := one fun _ => true

/-- The text of a string. -/
def text (s : String) : Pattern := word s.toList

/-- One of the characters of a string. -/
def oneOf (s : String) : Pattern := one s.toList.contains

/-- The first pattern of a list that matches. -/
def firstOf : List Pattern → Pattern
  | [] => absent nothing
  | [p] => p
  | p :: ps => alt p (firstOf ps)

/-- One after the other. -/
def inOrder : List Pattern → Pattern
  | [] => nothing
  | [p] => p
  | p :: ps => seq p (inOrder ps)

def opt (p : Pattern) : Pattern := alt p nothing

def oneOrMore (p : Pattern) : Pattern := seq p (many p)

end Pattern
end CTree.Lexical
