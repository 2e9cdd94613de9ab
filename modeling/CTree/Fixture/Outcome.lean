import CTree.Fixture.Basic

/-!
# Checking and blessing one fixture

A fixture passes if its input has the tree of its document. Where it has another
one, both documents are reported. To bless a fixture is to write the document of
its input.
-/
namespace CTree.Fixture

inductive Outcome
  | passed
  | failed (expected actual : String)
  | blessed
  | errored (error : Error)

namespace Outcome

def isSuccess : Outcome → Bool
  | passed | blessed => true
  | failed .. | errored _ => false

def name : Outcome → String
  | passed => "Passed"
  | failed .. => "Failed"
  | blessed => "Blessed"
  | errored _ => "Errored"

end Outcome

/-- The tree of the expected document. -/
def readExpected (fixture : Fixture) (store : Store) : Except Error Tree :=
  if fixture.hasExpected store then do
    let text ← store.readSource fixture.expected
    (Source.decode text).mapError (.notTree fixture.expected)
  else .error (.missingExpected fixture.expected)

/-- Nothing if the trees agree, else both documents. -/
def compare (fixture : Fixture) (store : Store) : Except Error (Option (String × String)) := do
  let actual ← store.readTree fixture.input
  let expected ← fixture.readExpected store
  if expected = actual then return none
  let expected ← Source.encode .pretty expected
  let actual ← Source.encode .pretty actual
  return some (expected, actual)

def check (fixture : Fixture) (store : Store) : Outcome :=
  match fixture.compare store with
  | .ok none => .passed
  | .ok (some (expected, actual)) => .failed expected actual
  | .error e => .errored e

def blessFile (fixture : Fixture) (store : Store) : Except Error Unit × Store :=
  store.convertFile .pretty fixture.input fixture.expected

def bless (fixture : Fixture) (store : Store) : Except Error Store :=
  Store.behind (fixture.blessFile store)

/-- Whether a fixture with this outcome of its check is to be blessed: it failed, or
it has no expected document. -/
def isBlessed (fixture : Fixture) (store : Store) : Outcome → Bool
  | .failed .. => true
  | .errored _ => !fixture.hasExpected store
  | _ => false

/-- Checks a fixture, and blesses it if that is asked for and due. -/
def process (fixture : Fixture) (blessing : Bool) (store : Store) : Outcome × Store :=
  let outcome := fixture.check store
  if blessing && fixture.isBlessed store outcome then
    match fixture.blessFile store with
    | (.ok (), store) => (.blessed, store)
    | (.error e, store) => (.errored e, store)
  else (outcome, store)

end CTree.Fixture
