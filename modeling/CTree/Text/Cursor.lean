/-!
# Places in a text

A text is read from left to right. `Cursor` is a place in it: the number of
bytes before it in UTF-8 and the characters after it. `Place` is the same place
for a human reader, a line and a column, both counted from one.
-/
namespace CTree.Text

/-- The number of bytes of a text in UTF-8. -/
def byteCount : List Char → Nat
  | [] => 0
  | c :: s => c.utf8Size + byteCount s

@[simp] theorem byteCount_nil : byteCount [] = 0 := rfl

@[simp] theorem byteCount_cons (c : Char) (s : List Char) :
    byteCount (c :: s) = c.utf8Size + byteCount s := rfl

@[simp] theorem byteCount_append (s t : List Char) :
    byteCount (s ++ t) = byteCount s + byteCount t := by
  induction s with
  | nil => simp
  | cons c s ih => simp [ih, Nat.add_assoc]

structure Cursor where
  offset : Nat
  rest : List Char
  deriving Repr, DecidableEq

namespace Cursor

/-- The beginning of a text. -/
def start (s : List Char) : Cursor := ⟨0, s⟩

/-- The place `n` characters further on. At the end of the text nothing moves. -/
def advance : Nat → Cursor → Cursor
  | 0, here => here
  | _ + 1, ⟨offset, []⟩ => ⟨offset, []⟩
  | n + 1, ⟨offset, c :: s⟩ => advance n ⟨offset + c.utf8Size, s⟩

@[simp] theorem advance_zero (here : Cursor) : advance 0 here = here := rfl

theorem advance_eq (n : Nat) (offset : Nat) (s : List Char) :
    advance n ⟨offset, s⟩ = ⟨offset + byteCount (s.take n), s.drop n⟩ := by
  induction n generalizing offset s with
  | zero => simp [advance]
  | succ n ih =>
    cases s with
    | nil => simp [advance]
    | cons c s => simp [advance, ih, Nat.add_assoc]

end Cursor

/-- A line and a column, counted from one. -/
structure Place where
  line : Nat
  column : Nat
  deriving Repr, DecidableEq

/-- The line and column of the character at a byte offset. Lines end with a line
feed and columns count characters. -/
def placeAt (offset : Nat) : List Char → Place :=
  go offset ⟨1, 1⟩
where
  go : Nat → Place → List Char → Place
    | 0, place, _ => place
    | _ + 1, place, [] => place
    | n + 1, place, c :: s =>
      go (n + 1 - c.utf8Size)
        (if c = '\n' then ⟨place.line + 1, 1⟩ else ⟨place.line, place.column + 1⟩) s

/-- The line of a byte offset and the number of bytes between the start of that
line and the offset. An offset past the end stands for the end. -/
def bytePlaceAt (offset : Nat) : List Char → Place :=
  go offset ⟨1, 0⟩
where
  go : Nat → Place → List Char → Place
    | 0, place, _ => place
    | _ + 1, place, [] => place
    | n + 1, place, c :: s =>
      if c = '\n' then go n ⟨place.line + 1, 0⟩ s
      else
        let width := min c.utf8Size (n + 1)
        go (n + 1 - c.utf8Size) ⟨place.line, place.column + width⟩ s

end CTree.Text
