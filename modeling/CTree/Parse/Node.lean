import CTree.Grammar.Rule
import CTree.Text.Cursor

/-!
# Parse trees

A leaf is a token with its text and the byte offset where it starts. A branch is
a rule with the parts it was read from. Its span may end with a gap, after which
an optional part was looked for in vain.
-/
namespace CTree.Parse
open CTree.Grammar CTree.Lexical CTree.Text

inductive Node
  | leaf (token : Token) (start : Nat) (text : List Char)
  | branch (rule : Rule) (start stop : Nat) (children : List Node)

namespace Node

def start : Node → Nat
  | leaf _ start _ => start
  | branch _ start _ _ => start

/-- The byte offset behind the node. -/
def stop : Node → Nat
  | leaf _ start text => start + byteCount text
  | branch _ _ stop _ => stop

def children : Node → List Node
  | leaf .. => []
  | branch _ _ _ children => children

/-- The name of the rule or token. -/
def name : Node → String
  | leaf token .. => token.name
  | branch rule .. => rule.name

end Node
end CTree.Parse
