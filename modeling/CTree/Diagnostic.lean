/-!
# Diagnostics

What is told about a failure: its kind, a message, and where it helps the place in
the source, an advice and the underlying cause.
-/
namespace CTree

inductive Kind
  /-- A file could not be read or written. -/
  | io
  /-- A source is not in the grammar. -/
  | parse
  /-- A document is not that of a tree. -/
  | decode
  /-- The program met a limit of its own. -/
  | internal
  deriving Repr, DecidableEq

namespace Kind

def all : List Kind := [io, parse, decode, internal]

def name : Kind → String
  | io => "Io"
  | parse => "Parse"
  | decode => "Decode"
  | internal => "Internal"

/-- What a message of this kind begins with. -/
def heading : Kind → String
  | io => "I/O error"
  | parse => "Parse error"
  | decode => "Decode error"
  | internal => "Internal error"

def code : Kind → String
  | io => "csyntax::io"
  | parse => "csyntax::parse"
  | decode => "csyntax::decode"
  | internal => "csyntax::internal"

end Kind

/-- A range of byte offsets in a source. -/
structure Span where
  start : Nat
  stop : Nat
  deriving Repr, DecidableEq

/-- A text at a place of the source. -/
structure Label where
  text : String
  offset : Nat
  length : Nat
  deriving Repr, DecidableEq

structure Diagnostic where
  kind : Kind
  message : String
  span : Option Span
  help : Option String
  cause : Option String
  deriving Repr, DecidableEq

namespace Diagnostic

/-- A message and nothing else. -/
def plain (kind : Kind) (message : String) : Diagnostic := ⟨kind, message, none, none, none⟩

def text (d : Diagnostic) : String := d.kind.heading ++ ": " ++ d.message

def code (d : Diagnostic) : String := d.kind.code

/-- The message stands where the span begins. -/
def label? (d : Diagnostic) : Option Label :=
  d.span.map fun span => ⟨d.message, span.start, span.stop - span.start⟩

end Diagnostic
end CTree
