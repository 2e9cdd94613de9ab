import CTree.Proofs.Discovery
import CTree.Proofs.FailureReport
import CTree.Proofs.FixtureErrors

/-!
# What a run tells

The counters are bumped on the way, the results are listed, and the exit status comes from
two of the counters. All of them say the same: each counter is the number of the
results with its tag. The report holds one tagged line for each fixture. What
stands below a tagged line is indented by more than any tag, so the tagged lines can
be found again in the text, as long as no name holds a line feed.
-/
namespace CTree.Report
open CTree.Fixture (Outcome)

variable {results : List (Fixture × Outcome)}

/-! ## Tagged lines -/

/-- How many of the lines have the tag. -/
def number (tag : String) (tagged : List (String × List Char)) : Nat :=
  tagged.countP (·.1 = tag)

end CTree.Report

namespace CTree.Fixture
open CTree.Report

variable {summary : Summary}

end CTree.Fixture

namespace CTree.Report
open CTree.Fixture (Outcome)

variable {fixture : Fixture} {outcome : Outcome} {results : List (Fixture × Outcome)}

/-! ## What is written -/

/-- The text consists of lines that are indented by six columns. -/
def Indented (text : List Char) : Prop :=
  ∃ lines : List (List Char), (∀ line ∈ lines, '\n' ∉ line) ∧
    text = lines.flatMap fun line => List.replicate 6 ' ' ++ line ++ ['\n']

theorem Indented.nil : Indented [] := ⟨[], by simp, rfl⟩

end CTree.Report

namespace CTree.Fixture
open CTree.Report
open CTree.Store (Path)

variable {fixture : Fixture} {store : Store} {blessing : Bool} {results : List (Fixture × Outcome)}

/-! ## What a run prints -/

/-- Both paths of a fixture are lines if its name is one. -/
theorem IsAt.not_mem {location : Store.Location} (h : fixture.IsAt store location)
    (hname : '\n' ∉ fixture.name.toList) :
    '\n' ∉ fixture.input.text.toList ∧ '\n' ∉ fixture.expected.text.toList := by
  have htexts := h.texts
  split_ifs at htexts <;> simp [htexts.1, htexts.2, hname]

end CTree.Fixture
