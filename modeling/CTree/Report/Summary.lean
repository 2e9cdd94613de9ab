import CTree.Fixture.Summary
import CTree.Report.LineDiff
import CTree.Report.Style

/-!
# The report of a run

One line for each fixture with its outcome and name. What went wrong follows below
it: the message of an error, or the difference between the expected and the actual
document. The last line counts the outcomes.
-/
namespace CTree.Report
open CTree.Fixture (Outcome Summary)

def tag : Outcome → String
  | .passed => "PASS"
  | .failed .. => "FAIL"
  | .blessed => "BLESS"
  | .errored _ => "ERROR"

def colourOf : Outcome → Colour
  | .passed => .green
  | .blessed => .yellow
  | .failed .. | .errored _ => .red

/-- The tag at the right of five columns. -/
def paddedTag (outcome : Outcome) : String :=
  String.ofList (List.replicate (5 - (tag outcome).length) ' ') ++ tag outcome

/-- What stands before each line of a run. -/
def mark : Change → String
  | .same => "       "
  | .removed => "      -"
  | .added => "      +"

def styleOfRun (coloured : Bool) : Change → String
  | .same => reset coloured
  | .removed => setColour coloured false .red
  | .added => setColour coloured false .green

def writeRun (coloured : Bool) (run : Run) : String :=
  (shownLines run.text).foldl
    (fun out line => out ++ mark run.change ++ String.ofList line ++ "\n")
    (styleOfRun coloured run.change)

def writeDetails (coloured : Bool) : Outcome → String
  | .failed expected actual =>
    (diff expected actual).foldl (fun out run => out ++ writeRun coloured run) "" ++
      reset coloured
  | .errored e => "      " ++ e.diagnostic.text ++ "\n"
  | .passed | .blessed => ""

/-- The tagged line of a fixture. -/
def writeHeading (coloured : Bool) (fixture : Fixture) (outcome : Outcome) : String :=
  setColour coloured true (colourOf outcome) ++ paddedTag outcome ++ reset coloured ++ " " ++
    fixture.name ++ "\n"

def writeResult (coloured : Bool) (fixture : Fixture) (outcome : Outcome) : String :=
  writeHeading coloured fixture outcome ++ writeDetails coloured outcome

def writeCounts (coloured : Bool) (summary : Summary) : String :=
  setColour coloured true (if summary.hasFailures then .red else .green) ++
    s!"{summary.total} fixtures: {summary.passed} passed, {summary.failed} failed, " ++
    s!"{summary.errored} errored, {summary.blessed} blessed\n" ++ reset coloured

def write (coloured : Bool) (summary : Summary) : String :=
  summary.results.foldl (fun out (fixture, outcome) => out ++ writeResult coloured fixture outcome)
    "" ++ "\n" ++ writeCounts coloured summary

end CTree.Report
