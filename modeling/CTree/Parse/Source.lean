import CTree.Parse.Reader

/-!
# Parsing a source

A text is parsed by a symbol from its first character on. Where the symbol does not
match, the fault says which symbols were wanted at the furthest place reached.
-/
namespace CTree.Parse
open CTree.Grammar CTree.Text

/-- The symbols wanted, in the order of `Symbol.all`, at a byte offset. -/
structure Fault where
  offset : Nat
  wanted : List Symbol
  deriving Repr, DecidableEq

/-- A list in words: `a`, `a or b`, `a, b, or c`. -/
def alternatives : List String → String
  | [] => ""
  | [a] => a
  | [a, b] => a ++ " or " ++ b
  | a :: others => a ++ more others
where
  more : List String → String
    | [] => ""
    | [z] => ", or " ++ z
    | b :: others => ", " ++ b ++ more others

namespace Fault

def ofLog (log : FailureLog) : Fault :=
  ⟨log.offset, Symbol.all.filter log.wanted.contains⟩

/-- Says what was wanted, naming each symbol as told. -/
def message (fault : Fault) (describe : Symbol → String) : String :=
  match fault.wanted with
  | [] => "unknown parsing error"
  | wanted => "expected " ++ alternatives (wanted.map describe)

end Fault

/-- The first node read by the symbol at the head of a text. -/
def parseWith (symbol : Symbol) (source : List Char) : Except Fault Node :=
  match readSymbol (depthFor source.length) symbol (.start source) .empty with
  | .matched (node :: _) _ _ => .ok node
  | .matched [] _ log => .error (.ofLog log)
  | .failed log => .error (.ofLog log)
  | .exhausted => .error (.ofLog .empty)

/-- The tree of a whole source. -/
def parse (source : List Char) : Except Fault Node :=
  parseWith (.rule .compilationUnit) source

end CTree.Parse
