import CTree.Parse.FailureLog
import CTree.Parse.Node

/-!
# Reading a text by the grammar

A reader is tried at a place of the text and yields the nodes that it read. It
also carries the failure log along, which nothing undoes: what failed in an
alternative given up later still counts.

Rules call each other, so a rule is read to a depth. `depthFor` is a depth that no
text of the given length exceeds, because no rule calls itself again before a
character was taken.
-/
namespace CTree.Parse
open CTree.Grammar CTree.Lexical CTree.Text

inductive Outcome
  | matched (nodes : List Node) (stop : Cursor) (log : FailureLog)
  | failed (log : FailureLog)
  /-- The depth did not suffice. -/
  | exhausted

abbrev Reader := Cursor → FailureLog → Outcome

/-- The place behind the gap that begins here. -/
def skipGap (here : Cursor) : Cursor := here.advance (gapWidth here.rest)

def readToken (t : Token) : Reader := fun here log =>
  match t.width? here.rest with
  | some n => .matched [.leaf t here.offset (here.rest.take n)] (here.advance n) log
  | none => .failed (log.note (log.countAt here.offset) here.offset (.token t))

/-- Reads again and again, each time behind a gap, until the reader fails; a gap
without a further item behind it is given back. The list of characters is a
clock: each turn takes at least one character, and the last one fails. The nodes
read so far are kept last first. -/
def readMore (item : Reader) : List Char → List Node → Reader
  | [], read, here, log => .matched read.reverse here log
  | _ :: clock, read, here, log =>
    match item (skipGap here) log with
    | .matched nodes stop log => readMore item clock (nodes.reverse ++ read) stop log
    | .failed log => .matched read.reverse here log
    | .exhausted => .exhausted

/-- Reads an expression, given a reader for each rule. -/
def readExpr (readRule : Rule → Reader) : Expr Rule → Reader
  | .nothing => fun here log => .matched [] here log
  | .token t => readToken t
  | .rule r => readRule r
  | .seq first second => fun here log =>
    match readExpr readRule first here log with
    | .matched nodes stop log =>
      match readExpr readRule second (skipGap stop) log with
      | .matched more stop log => .matched (nodes ++ more) stop log
      | .failed log => .failed log
      | .exhausted => .exhausted
    | .failed log => .failed log
    | .exhausted => .exhausted
  | .alt first second => fun here log =>
    match readExpr readRule first here log with
    | .failed log => readExpr readRule second here log
    | outcome => outcome
  | .opt body => fun here log =>
    match readExpr readRule body here log with
    | .failed log => .matched [] here log
    | outcome => outcome
  | .many body => fun here log =>
    match readExpr readRule body here log with
    | .matched nodes stop log =>
      readMore (readExpr readRule body) here.rest nodes.reverse stop log
    | .failed log => .matched [] here log
    | .exhausted => .exhausted
  | .ahead body => fun here log =>
    match readExpr readRule body here log with
    | .matched _ _ log => .matched [] here log
    | outcome => outcome

/-- Reads a rule whose calls are nested at most as deep as given. -/
def readRule : Nat → Rule → Reader
  | 0, _ => fun _ _ => .exhausted
  | depth + 1, r => fun here log =>
    match readExpr (readRule depth) r.body here log with
    | .matched nodes stop log => .matched [.branch r here.offset stop.offset nodes] stop log
    | .failed after =>
      .failed (after.note (log.countAt here.offset) here.offset (.rule r))
    | .exhausted => .exhausted

/-- Enough depth for a text of the given number of characters. -/
def depthFor (length : Nat) : Nat := Rule.all.length * (length + 1)

def readSymbol (depth : Nat) : Symbol → Reader
  | .rule r => readRule depth r
  | .token t => readToken t

end CTree.Parse
