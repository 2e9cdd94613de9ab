/-!
# Paths

A path is a text. Read from left to right it is a list of steps: names, steps up,
and at its beginning the root or the current folder. Its last name may end with an
extension, which is what follows the last dot; a dot that begins a name does not
count.
-/
namespace CTree.Store

/-- The pieces of a text between the separators. There is always one more of them
than there are separators. -/
def splitOn (separator : Char) : List Char → List (List Char)
  | [] => [[]]
  | c :: s =>
    if c = separator then [] :: splitOn separator s
    else
      match splitOn separator s with
      | [] => [[c]]
      | piece :: pieces => (c :: piece) :: pieces

/-- A list comes before another one if this one goes on behind it, or at the first
difference. -/
def listBefore {α : Type} [DecidableEq α] (before : α → α → Bool) : List α → List α → Bool
  | _, [] => false
  | [], _ :: _ => true
  | a :: as, b :: bs => if a = b then listBefore before as bs else before a b

structure Path where
  text : String
  deriving Repr, DecidableEq, Inhabited

/-- A step of a path. -/
inductive Component
  | root
  | here
  | up
  | name (name : String)
  deriving Repr, DecidableEq

namespace Component

/-- Steps are ordered by their kind, and names among themselves by their characters. -/
def before : Component → Component → Bool
  | name a, name b => listBefore (fun c d => c.toNat < d.toNat) a.toList b.toList
  | a, b => rank a < rank b
where
  rank : Component → Nat
    | root => 0
    | here => 1
    | up => 2
    | name _ => 3

/-- The step of a piece of a path that is not the first one, if it is a step. -/
def ofPiece? (piece : List Char) : Option Component :=
  if piece = [] ∨ piece = ['.'] then none
  else if piece = ['.', '.'] then some up
  else some (name (String.ofList piece))

end Component

/-- A name cut at its last dot. A name without a dot, or with its only dot in front,
has no extension. -/
def splitName (name : List Char) : List Char × Option (List Char) :=
  match cut name with
  | some ([], _) | none => (name, none)
  | some (stem, extension) => (stem, some extension)
where
  /-- What is before and behind the last dot. -/
  cut : List Char → Option (List Char × List Char)
    | [] => none
    | c :: s =>
      match cut s with
      | some (before, behind) => some (c :: before, behind)
      | none => if c = '.' then some ([], s) else none

namespace Path

/-- The pieces between slashes, empty ones included. -/
def pieces (path : Path) : List (List Char) := splitOn '/' path.text.toList

def isAbsolute (path : Path) : Bool := path.text.toList.head? = some '/'

def components (path : Path) : List Component :=
  let steps := path.pieces.filterMap Component.ofPiece?
  if path.isAbsolute then .root :: steps
  else if path.pieces.head? = some ['.'] then .here :: steps
  else steps

/-- The order in which paths are listed, component by component. -/
def before (p q : Path) : Bool := listBefore Component.before p.components q.components

/-- The last step, if it is a name. -/
def fileName? (path : Path) : Option (List Char) :=
  match path.components.getLast? with
  | some (.name name) => some name.toList
  | _ => none

def extension? (path : Path) : Option String :=
  path.fileName?.bind fun name => (splitName name).2.map String.ofList

/-- The text of a path up to the end of its last name, read backwards: slashes and
single dots behind the name go. -/
def trimBack : List Char → List Char
  | '/' :: s => trimBack s
  | '.' :: '/' :: s => trimBack s
  | s => s

/-- The path with another extension, or without one if it is empty. Slashes behind
the name are dropped. A path that does not end with a name stays as it is. So does
one of which `..` remains once its extension is cut off, since that is a step up
and not a name. -/
def withExtension (path : Path) (extension : String) : Path :=
  match path.fileName? with
  | none => path
  | some name =>
    let stem := (splitName name).1
    let text := path.text.toList
    let trimmed := (trimBack text.reverse).reverse
    let base := trimmed.take (trimmed.length - (name.length - stem.length))
    if stem = ['.'] ∧ trimmed = text then ⟨String.ofList (base ++ ['.'])⟩
    else if extension = "" then ⟨String.ofList base⟩
    else ⟨String.ofList base ++ "." ++ extension⟩

/-- The path of a name below the path. -/
def join (path : Path) (name : String) : Path :=
  if path.text = "" then ⟨name⟩
  else if path.text.toList.getLast? = some '/' then ⟨path.text ++ name⟩
  else ⟨path.text ++ "/" ++ name⟩

end Path
end CTree.Store
