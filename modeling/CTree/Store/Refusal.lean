/-!
# Refusals

Why a store does not read or write a path, and how that is told.
-/
namespace CTree.Store

inductive Refusal
  | notFound
  /-- A file is used as a folder. -/
  | notFolder
  | isFolder
  /-- The bytes of a file are not UTF-8. -/
  | notText
  deriving Repr, DecidableEq

def Refusal.text : Refusal → String
  | notFound => "No such file or directory (os error 2)"
  | notFolder => "Not a directory (os error 20)"
  | isFolder => "Is a directory (os error 21)"
  | notText => "stream did not contain valid UTF-8"

end CTree.Store
