import CTree.Error

/-!
# From a source to its document, and back to a tree

The chain of steps that needs no files: a source is parsed to a tree, a tree is
written as a document, and a document is read as a tree. Two documents are equal
if their trees are, whatever their layout.
-/
namespace CTree.Source

def parse (text : String) : Except Error Parse.Node :=
  (Parse.parse text.toList).mapError (.source · text.toList)

def toTree (text : String) : Except Error Tree := (parse text).map (·.toTree)

def encode (layout : Json.Layout) (tree : Tree) : Except Error String :=
  (tree.encode layout).mapError .tooDeep

def toDocument (layout : Json.Layout) (text : String) : Except Error String :=
  toTree text >>= encode layout

def readJson (text : String) : Except Error Json :=
  (Json.read text.toList).mapError (.json · text.toList)

def ofJson (value : Json) : Except Error Tree := (Tree.ofJson value).mapError .shape

def decode (text : String) : Except Error Tree := readJson text >>= ofJson

/-- Compares the trees of two documents. The first one is read first. -/
def equalDocuments (expected actual : String) : Except Error Bool := do
  let expected ← decode expected
  let actual ← decode actual
  return expected = actual

end CTree.Source
