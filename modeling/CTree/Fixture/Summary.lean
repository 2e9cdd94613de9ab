import CTree.Fixture.Outcome

/-!
# Running all fixtures

The fixtures below a path are processed one after the other. The summary holds
their outcomes in the same order, and counters on which each outcome was recorded.
-/
namespace CTree.Fixture
open CTree.Store (Path)

/-- One counter for each kind of outcome. -/
structure Tally where
  passed : Nat := 0
  failed : Nat := 0
  blessed : Nat := 0
  errored : Nat := 0
  deriving Repr, DecidableEq

/-- One more outcome. -/
def Tally.record (tally : Tally) : Outcome → Tally
  | .passed => { tally with passed := tally.passed + 1 }
  | .failed .. => { tally with failed := tally.failed + 1 }
  | .blessed => { tally with blessed := tally.blessed + 1 }
  | .errored _ => { tally with errored := tally.errored + 1 }

structure Summary where
  results : List (Fixture × Outcome)

namespace Summary

def total (summary : Summary) : Nat := summary.results.length

/-- The counters behind the run. -/
def tally (summary : Summary) : Tally :=
  summary.results.foldl (fun tally r => tally.record r.2) {}

def passed (summary : Summary) : Nat := summary.tally.passed

def failed (summary : Summary) : Nat := summary.tally.failed

def blessed (summary : Summary) : Nat := summary.tally.blessed

def errored (summary : Summary) : Nat := summary.tally.errored

def hasFailures (summary : Summary) : Bool := 0 < summary.failed || 0 < summary.errored

end Summary

/-- Processes fixtures from the first to the last. -/
def processAll (blessing : Bool) : List Fixture → Store → List (Fixture × Outcome) × Store
  | [], store => ([], store)
  | fixture :: fixtures, store =>
    let (outcome, store) := fixture.process blessing store
    let (results, store) := processAll blessing fixtures store
    ((fixture, outcome) :: results, store)

/-- Processes the fixtures below a path. -/
def run (store : Store) (root : Path) (blessing : Bool) : Except Error (Summary × Store) := do
  let fixtures ← discover store root
  let (results, store) := processAll blessing fixtures store
  return (⟨results⟩, store)

end CTree.Fixture
