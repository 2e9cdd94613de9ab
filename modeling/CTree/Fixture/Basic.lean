import CTree.Store.Source

/-!
# Fixtures

A fixture is a source file `name.in` beside the document `name.out` of the tree that
it must have. The document may have either layout.
-/
namespace CTree
open CTree.Store (Path)

structure Fixture where
  input : Path
  expected : Path
  deriving Repr, DecidableEq

namespace Fixture

def inputExtension : String := "in"

def expectedExtension : String := "out"

def ofInput (input : Path) : Fixture := ⟨input, input.withExtension expectedExtension⟩

/-- The path of both files without their extensions. -/
def name (fixture : Fixture) : String := (fixture.input.withExtension "").text

def hasExpected (fixture : Fixture) (store : Store) : Bool := store.isFile fixture.expected

/-- The fixtures at and below a path, in the order of their paths. -/
def discover (store : Store) (root : Path) : Except Error (List Fixture) :=
  match store.filesBelow root with
  | .error _ => .error (.missingRoot root)
  | .ok files =>
    let inputs := files.filter (·.extension? = some inputExtension)
    .ok ((inputs.mergeSort fun p q => !q.before p).map ofInput)

end Fixture
end CTree
