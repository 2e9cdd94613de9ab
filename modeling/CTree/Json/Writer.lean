import CTree.Decimal.Shortest
import CTree.Json.Basic

/-!
# Writing JSON

A document is written on one line, or with every item and member on a line of its
own. The two differ in the white space between tokens and in nothing else. The
writers append to what was written before.
-/
namespace CTree.Json

inductive Layout
  /-- No white space at all. -/
  | compact
  /-- Four spaces for each level. -/
  | pretty
  deriving Repr, DecidableEq

namespace Layout

/-- What stands before an item or a closing bracket at a level. -/
def lineBreak (layout : Layout) (level : Nat) (out : String) : String :=
  match layout with
  | compact => out
  | pretty => level.repeat (· ++ "    ") (out.push '\n')

/-- What stands between a key and its value. -/
def colon : Layout → String
  | compact => ":"
  | pretty => ": "

end Layout

def hexDigit (n : Nat) : Char := if n < 10 then Char.ofNat (48 + n) else Char.ofNat (87 + n)

/-- A character inside of a string. Quotes, backslashes and control characters are
escaped, the common ones by a letter. -/
def escape (c : Char) : List Char :=
  if c = '\"' then ['\\', '\"']
  else if c = '\\' then ['\\', '\\']
  else if c = '\x08' then ['\\', 'b']
  else if c = '\t' then ['\\', 't']
  else if c = '\n' then ['\\', 'n']
  else if c = '\x0c' then ['\\', 'f']
  else if c = '\r' then ['\\', 'r']
  else if c.toNat < 32 then
    ['\\', 'u', '0', '0', hexDigit (c.toNat / 16), hexDigit (c.toNat % 16)]
  else [c]

def writeString (s : String) (out : String) : String :=
  (s.toList.foldl (fun out c => (escape c).foldl String.push out) (out.push '\"')).push '\"'

/-- Doubles are written shortest, with a point or a power of ten. -/
def doubleLayout : Decimal.Layout where
  leastPlace := -4
  greatestPlace := 16
  wholeMark := ".0"
  powerMark := "e"
  powerSign := "+"

def Number.text : Number → String
  | natural n => toString n
  | negative n => "-" ++ toString (n + 1)
  | double x => doubleLayout.writeDouble x

mutual

/-- Appends a value that stands at the given level. -/
def write (layout : Layout) (level : Nat) : Json → String → String
  | null, out => out ++ "null"
  | bool b, out => out ++ (if b then "true" else "false")
  | number n, out => out ++ n.text
  | string s, out => writeString s out
  | array [], out => out ++ "[]"
  | array (item :: items), out =>
    let out := write layout (level + 1) item (layout.lineBreak (level + 1) (out.push '['))
    (layout.lineBreak level (writeItems layout (level + 1) items out)).push ']'
  | object [], out => out ++ "\x7b\x7d"
  | object ((key, value) :: members), out =>
    let out := writeString key (layout.lineBreak (level + 1) (out.push '\x7b'))
    let out := write layout (level + 1) value (out ++ layout.colon)
    (layout.lineBreak level (writeMembers layout (level + 1) members out)).push '\x7d'

/-- Appends further items. -/
def writeItems (layout : Layout) (level : Nat) : List Json → String → String
  | [], out => out
  | item :: items, out =>
    writeItems layout level items
      (write layout level item (layout.lineBreak level (out.push ',')))

/-- Appends further members. -/
def writeMembers (layout : Layout) (level : Nat) : List (String × Json) → String → String
  | [], out => out
  | (key, value) :: members, out =>
    writeMembers layout level members
      (write layout level value
        (writeString key (layout.lineBreak level (out.push ',')) ++ layout.colon))

end

/-- The text of a document. -/
def render (layout : Layout) (value : Json) : String := write layout 0 value ""

end CTree.Json
