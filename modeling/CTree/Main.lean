import CTree.CommandLine.Run

/-!
# The program

The files that a command names are read into a store, the command runs on the store,
and the files that it changed are written. A file is written beside its place and
then moved there, so that nobody finds a part of it.
-/
namespace CTree.Main
open CTree.Store (Location)

/-- The absolute path of a location. -/
def systemPath (location : Location) : String := "/" ++ "/".intercalate location

def locationOf (text : String) : Location :=
  ((Store.splitOn '/' text.toList).map String.ofList).filter (· ≠ "")

/-- The location to which the steps of a path lead from another one. -/
def resolve (current : Location) (path : Store.Path) : Location :=
  path.components.foldl
    (fun location step =>
      match step with
      | .root => []
      | .here => location
      | .up => location.dropLast
      | .name name => location ++ [name])
    current

/-- Reads what stands at a location: a folder without its entries, or a file. -/
def load (store : Store) (location : Location) : IO Store := do
  if (store.get? location).isSome then return store
  try
    let path ← IO.FS.realPath (systemPath location)
    if ← path.isDir then return store.ensureFolder location
    let bytes ← IO.FS.readBinFile path
    return ((store.putFile location bytes).toOption).getD store
  catch _ => return store

/-- Reads all that stands on the way to a location. -/
def loadWay (store : Store) (location : Location) : IO Store :=
  (List.range (location.length + 1)).foldlM (fun store n => load store (location.take n)) store

/-- Reads a folder with all that is below it. -/
partial def loadBelow (store : Store) (location : Location) : IO Store := do
  let store ← load store location
  match store.get? location with
  | some .folder =>
    let entries ← (← IO.FS.realPath (systemPath location)).readDir
    entries.foldlM (fun store entry => loadBelow store (location ++ [entry.fileName])) store
  | _ => return store

/-- Reads the files that a command names. -/
def loadFor (store : Store) (current : Location) : CommandLine.Request → IO Store
  | .run (.convert input output _) => do
    loadWay (← loadWay store (resolve current input)) (resolve current output)
  | .run (.tree input _) => loadWay store (resolve current input)
  | .run (.test root _) => do
    let location := resolve current root
    loadBelow (← loadWay store location) location
  | .help _ | .version => return store

def writeFile (location : Location) (bytes : ByteArray) : IO Unit := do
  let time ← IO.monoNanosNow
  let draft := systemPath (location.dropLast ++ [".csyntax-" ++ toString time])
  IO.FS.writeBinFile draft bytes
  IO.FS.rename draft (systemPath location)

/-- What is told about a failure, its code first. -/
def report : CommandLine.Failure → String
  | .usage e => s!"error: {e.message}\n"
  | .error e =>
    let d := e.diagnostic
    d.code ++ "\n\n  " ++ d.text ++ "\n" ++ line "cause" d.cause ++ line "help" d.help
where
  line (name : String) (text : Option String) : String :=
    text.elim "" fun text => s!"  {name}: {text}\n"

end CTree.Main

open CTree CTree.Main in
def main (arguments : List String) : IO UInt32 := do
  let current := locationOf (← IO.currentDir).toString
  let environment : CommandLine.Environment :=
    ⟨← IO.getEnv "CSYNTAX_BLESS", ← IO.getEnv "TERM", ← IO.getEnv "NO_COLOR"⟩
  let empty : Store := { Store.empty.ensureFolders current with current := current }
  let store ←
    match CommandLine.read arguments with
    | .ok request => loadFor empty current request
    | .error _ => pure empty
  let answer := CommandLine.answer environment arguments store
  for (location, bytes) in answer.store.filesNotIn store do
    writeFile location bytes
  IO.print answer.output
  if let some failure := answer.failure then IO.eprint (report failure)
  return answer.status.toUInt32
