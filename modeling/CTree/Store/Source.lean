import CTree.Source
import CTree.Store.Replace

/-!
# Sources and documents in a store

The steps of `CTree.Source` with files at both ends. An output file is only touched
once its whole document is there.
-/
namespace CTree.Store

def readSource (store : Store) (path : Path) : Except Error String :=
  (store.readText path).mapError (.unreadable path)

/-- The tree of a source file. -/
def readTree (store : Store) (path : Path) : Except Error Tree :=
  store.readSource path >>= Source.toTree

/-- The document of a source file. -/
def readDocument (store : Store) (layout : Json.Layout) (path : Path) : Except Error String :=
  store.readTree path >>= Source.encode layout

def replaceText (store : Store) (path : Path) (text : String) : Except Error Unit × Store :=
  let (result, store) := store.replaceFile path text.toUTF8
  (result.mapError fun _ => .unwritable path, store)

def writeDocument (store : Store) (path : Path) (text : String) : Except Error Store :=
  behind (store.replaceText path text)

/-- Writes the document of a source file to another file. -/
def convertFile (store : Store) (layout : Json.Layout) (input output : Path) :
    Except Error Unit × Store :=
  match store.readDocument layout input with
  | .error e => (.error e, store)
  | .ok text => store.replaceText output text

def convert (store : Store) (layout : Json.Layout) (input output : Path) : Except Error Store :=
  behind (store.convertFile layout input output)

end CTree.Store
