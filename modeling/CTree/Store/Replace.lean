import CTree.Store.Basic

/-!
# Replacing a file

A file is replaced in steps, none of which leaves a part of it where it belongs: an
empty draft with a name of its own is made in the same folder, it is filled, and it
is moved to its place. A draft that cannot be filled or moved is taken away again.
A step that fails ends the run with the store as it is then; that nothing is left of
the steps before it is for the proofs.
-/
namespace CTree.Store

/-- A name that no entry has: it is longer than each of theirs. -/
def unusedName (store : Store) : String :=
  String.ofList (['.', 't', 'm', 'p'] ++ List.replicate longest 'x')
where
  longest : Nat := ((store.entries.flatMap (·.1)).map String.length).max?.getD 0

/-- The folder around the last step of a path. A path without steps has the current
folder around it. -/
def folderAround (store : Store) (path : Path) : Except Refusal Location :=
  match path.pieces.reverse.dropWhile fun piece => piece = [] ∨ piece = ['.'] with
  | [] => .ok store.current
  | _ :: outer => store.follow (store.origin path) outer.reverse

/-- Makes an empty file with an unused name beside the file of a path. -/
def makeDraft (store : Store) (path : Path) : Except Refusal (Location × Store) := do
  let draft := (← store.folderAround path) ++ [store.unusedName]
  return (draft, ← store.putFile draft .empty)

/-- The location of a file that is to be written: a new or an old name in a folder
that exists. -/
def target (store : Store) (path : Path) : Except Refusal Location :=
  match path.pieces.getLast? with
  | none => .error .notFound
  | some last =>
    if last = [] ∨ last = ['.'] ∨ last = ['.', '.'] then .error .isFolder
    else do
      let folder ← store.follow (store.origin path) path.pieces.dropLast
      return folder ++ [String.ofList last]

/-- Moves the file at a location to the place of a path, over an old one if there is
one. -/
def moveFile (store : Store) (source : Location) (path : Path) : Except Refusal Store := do
  match store.get? source with
  | none => .error .notFound
  | some .folder => .error .isFolder
  | some (.file bytes) => (store.removeFile source).putFile (← store.target path) bytes

/-- Replaces the file of a path, or makes it. -/
def replaceFile (store : Store) (path : Path) (bytes : ByteArray) : Except Refusal Unit × Store :=
  match store.makeDraft path with
  | .error refusal => (.error refusal, store)
  | .ok (draft, store) =>
    match store.putFile draft bytes with
    | .error refusal => (.error refusal, store.removeFile draft)
    | .ok store =>
      match store.moveFile draft path with
      | .error refusal => (.error refusal, store.removeFile draft)
      | .ok store => (.ok (), store)

/-- The store behind a run, if the run came to its end. -/
def behind {ε : Type} (run : Except ε Unit × Store) : Except ε Store := run.1.map fun _ => run.2

def writeBytes (store : Store) (path : Path) (bytes : ByteArray) : Except Refusal Store :=
  behind (store.replaceFile path bytes)

end CTree.Store
