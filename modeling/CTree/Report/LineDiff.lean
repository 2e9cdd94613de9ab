/-!
# Differences between texts, line by line

Two texts are compared by a common subsequence of their lines. It is found by
walking back through the table of the lengths of the longest common subsequences,
from the last lines to the first. The lines of both texts are then told in runs:
common lines, lines of the first text only, and lines of the second text only. A run
is a text again, which is cut into lines when it is shown.
-/
namespace CTree.Report

/-- The lines of a text between its line feeds. -/
def splitLines (text : List Char) : List (List Char) :=
  text.foldr
    (fun c lines =>
      if c = '\n' then [] :: lines
      else
        match lines with
        | [] => [[c]]
        | line :: lines => (c :: line) :: lines)
    [[]]

/-- The lines of a text as they are shown. A line ends with a line feed, and a carriage
return in front of it goes with it. There is no line behind the last line end. -/
def shownLines (text : List Char) : List (List Char) :=
  match (splitLines text).getLast? with
  | some [] | none => ended
  | some last => ended ++ [last]
where
  /-- The lines that end with a line feed. -/
  ended : List (List Char) :=
    (splitLines text).dropLast.map fun line =>
      if line.getLast? = some '\r' then line.dropLast else line

/-! ## A common subsequence -/

/-- The next row of the table, for one more line of the first text: `diagonal` and
`left` are the entries before the ones in `above` and in the new row. -/
def nextRow (line : String) (diagonal left : Nat) : List Nat → List String → List Nat
  | up :: above, other :: others =>
    let entry := if line = other then diagonal + 1 else max left up
    entry :: nextRow line up entry above others
  | _, _ => []

/-- One row for each line of the first text, one column for each of the second. -/
def table (a b : List String) : Array (Array Nat) :=
  (a.foldl
    (fun (rows, above) line =>
      let row := nextRow line 0 0 above b
      (rows.push row.toArray, row))
    (#[], b.map fun _ => 0)).1

def entry (rows : Array (Array Nat)) (i j : Nat) : Nat := (rows.getD i #[]).getD j 0

/-- Walks back from line `i` of the first text and line `j` of the second, counted
from one. In the first column the entry to the left is the last one of the row
before. -/
def walkBack (a b : Array String) (rows : Array (Array Nat)) (i j : Nat)
    (common : List String) : List String :=
  match i, j with
  | 0, _ => common
  | _, 0 => common
  | i + 1, j + 1 =>
    let line := a.getD i ""
    if line = b.getD j "" then walkBack a b rows i j (line :: common)
    else if i = 0 ∧ j = 0 then common
    else
      let left := if j = 0 then entry rows (i - 1) (b.size - 1) else entry rows i (j - 1)
      if i = 0 ∨ entry rows (i - 1) j < left then walkBack a b rows (i + 1) j common
      else walkBack a b rows i (j + 1) common
termination_by i + j

def commonLines (a b : List String) : List String :=
  walkBack a.toArray b.toArray (table a b) a.length b.length []

/-! ## Runs -/

inductive Change
  | same
  | removed
  | added
  deriving Repr, DecidableEq

structure Run where
  change : Change
  lines : List String
  deriving Repr, DecidableEq

/-- The lines of a run as one text. -/
def Run.text (run : Run) : List Char := ['\n'].intercalate (run.lines.map String.toList)

/-- The lines with which all three lists begin, and what is left of the lists. -/
def takeSame : List String → List String → List String →
    List String × List String × List String × List String
  | x :: a, y :: b, z :: common =>
    if x = z ∧ y = z then
      let (same, rest) := takeSame a b common
      (x :: same, rest)
    else ([], x :: a, y :: b, z :: common)
  | a, b, common => ([], a, b, common)

/-- The lines before the next common one, and the others. -/
def takeOwn (lines common : List String) : List String × List String :=
  lines.span fun line => some line ≠ common.head?

/-- The runs of two lists of lines with a common subsequence. Each turn takes at
least one line, so as many turns as there are lines suffice. -/
def runs : Nat → List String → List String → List String → List Run
  | 0, _, _, _ => []
  | turns + 1, a, b, common =>
    if a = [] ∧ b = [] then []
    else
      let (same, a, b, common) := takeSame a b common
      let (removed, a) := takeOwn a common
      let (added, b) := takeOwn b common
      [⟨.same, same⟩, ⟨.removed, removed⟩, ⟨.added, added⟩].filter (·.lines ≠ []) ++
        runs turns a b common

/-- The runs of two texts. -/
def diff (expected actual : String) : List Run :=
  let a := (splitLines expected.toList).map String.ofList
  let b := (splitLines actual.toList).map String.ofList
  runs (a.length + b.length) a b (commonLines a b)

end CTree.Report
