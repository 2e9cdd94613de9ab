import CTree.Diagnostic
import CTree.Json.Reader
import CTree.Parse.Source
import CTree.Store.Path
import CTree.Store.Refusal
import CTree.Tree.Document

/-!
# Errors

Every way in which a command can fail, by its cause. `Error.diagnostic` is what is
told about it.
-/
namespace CTree
open CTree.Store (Path)

inductive Error
  | unreadable (path : Path) (refusal : Store.Refusal)
  | unwritable (path : Path)
  | missingRoot (root : Path)
  | missingExpected (path : Path)
  /-- A source that is not in the grammar. -/
  | source (fault : Parse.Fault) (text : List Char)
  /-- A document that is not JSON. -/
  | json (fault : Json.Fault) (text : List Char)
  /-- A JSON value that is not a tree. -/
  | shape (fault : Tree.Fault)
  /-- A file whose document is not that of a tree, and why. -/
  | notTree (path : Path) (cause : Error)
  /-- A tree too deep to be written. -/
  | tooDeep (depth : Nat)

namespace Error

/-- The message says what was wanted, and where. -/
def ofSource (fault : Parse.Fault) (text : List Char) : Diagnostic :=
  let place := Text.placeAt fault.offset text
  { kind := .parse
    message := fault.message Grammar.Symbol.description ++
      s!" at line {place.line}, column {place.column}"
    span := some ⟨fault.offset, fault.offset⟩
    help := some (if Text.byteCount text ≤ fault.offset then
      "the input ended before the construct was complete"
      else "check the token under the marker")
    cause := none }

def ofJson (fault : Json.Fault) (text : List Char) : Diagnostic :=
  let place := Text.bytePlaceAt fault.offset text
  let heading :=
    match fault.problem with
    | .trailingCharacters => "trailing characters after JSON document: "
    | _ => "invalid JSON: "
  .plain .decode
    (heading ++ fault.problem.message ++ s!" at line {place.line} column {place.column}")

def diagnostic : Error → Diagnostic
  | unreadable path refusal =>
    { Diagnostic.plain .io s!"Failed to read '{path.text}'" with cause := some refusal.text }
  | unwritable path => .plain .io s!"Failed to write '{path.text}'"
  | missingRoot root => .plain .io s!"Fixture directory '{root.text}' does not exist"
  | missingExpected path =>
    { Diagnostic.plain .io s!"Missing expected output '{path.text}'" with
      help := some "run the fixtures with --bless to create it" }
  | source fault text => ofSource fault text
  | json fault text => ofJson fault text
  | shape fault => .plain .decode fault.message
  | notTree path cause =>
    { Diagnostic.plain .decode s!"'{path.text}' is not a serialized syntax tree" with
      cause := some cause.diagnostic.text }
  | tooDeep depth =>
    .plain .internal
      s!"syntax tree is nested {depth} levels deep; at most {Tree.maxDepth} can be encoded"

end Error
end CTree
