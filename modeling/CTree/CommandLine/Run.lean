import CTree.CommandLine.Help
import CTree.Report.Summary

/-!
# Running a command

A command takes a store to a store, and yields an exit status, what it prints, and
what it failed with, if it did. The status is 0 on success, 1 after an
error or a fixture that did not pass, and 2 where the arguments are not understood.
-/
namespace CTree.CommandLine
open CTree.Store (Path)

/-- The variables that the program looks at. -/
structure Environment where
  bless : Option String
  term : Option String
  noColor : Option String
  deriving Repr, DecidableEq

namespace Environment

/-- Blessing is asked for by `1`, or by `true` in any case. -/
def blesses (environment : Environment) : Bool :=
  match environment.bless with
  | none => false
  | some value => value = "1" || value.toList.map Char.toLower = ['t', 'r', 'u', 'e']

/-- Colours need a terminal type that has them, and that nothing forbids them. -/
def coloured (environment : Environment) : Bool :=
  environment.noColor.isNone &&
    match environment.term with
    | none => false
    | some term => term ≠ "dumb"

end Environment

inductive Failure
  | usage (error : UsageError)
  | error (error : Error)

/-- The code of the error that a command failed with. Arguments that are not
understood have none. -/
def Failure.code? : Failure → Option String
  | usage _ => none
  | error e => some e.diagnostic.code

structure Answer where
  status : Nat
  output : String
  failure : Option Failure
  store : Store

/-- A command that did what it should. -/
def done (output : String) (store : Store) : Answer := ⟨0, output, none, store⟩

/-- A command that failed, and the store that it left behind. -/
def fail (store : Store) (error : Error) : Answer := ⟨1, "", some (.error error), store⟩

/-- Shows the document of a source. -/
def display (layout : Json.Layout) (input : Path) (store : Store) : Answer :=
  match store.readDocument layout input with
  | .ok text => done (text ++ "\n") store
  | .error e => fail store e

/-- Runs the fixtures below a path. -/
def test (coloured blessing : Bool) (root : Path) (store : Store) : Answer :=
  match Fixture.run store root blessing with
  | .ok (summary, store) =>
    ⟨if summary.hasFailures then 1 else 0, Report.write coloured summary, none, store⟩
  | .error e => fail store e

/-- The output path that stands for what the program prints. -/
def standardOutput : Path := ⟨"-"⟩

def run (environment : Environment) (store : Store) : Command → Answer
  | .convert input output layout =>
    if output = standardOutput then display layout input store
    else
      match store.convertFile layout input output with
      | (.ok (), store) => done "" store
      | (.error e, store) => fail store e
  | .tree input layout => display layout input store
  | .test root bless => test environment.coloured (bless || environment.blesses) root store

/-- Answers the arguments of the command line. -/
def answer (environment : Environment) (arguments : List String) (store : Store) : Answer :=
  match read arguments with
  | .error e => ⟨2, "", some (.usage e), store⟩
  | .ok (.help topic) => done topic.text store
  | .ok .version => done versionText store
  | .ok (.run command) => run environment store command

end CTree.CommandLine
