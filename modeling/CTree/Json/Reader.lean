import CTree.Json.Basic

/-!
# Reading JSON

A document is read character by character. What was read is a state: the arrays
and objects that are open, and what is due next. A step takes one character to the
next state or to a fault, so the reader is one pass over the text whatever the
nesting, and reading `s ++ t` is reading `s` and then `t`.

A fault is told at the number of bytes that were read, the offending one included.
-/
namespace CTree.Json

inductive Problem
  | endInValue | endInString | endInArray | endInObject
  | expectedValue | expectedIdent | invalidNumber | numberOutOfRange
  | controlCharacter | invalidEscape | loneSurrogate | endOfHexEscape
  | expectedItemEnd | expectedMemberEnd | trailingComma | keyNotString | expectedColon
  | trailingCharacters
  deriving Repr, DecidableEq

def Problem.message : Problem → String
  | endInValue => "EOF while parsing a value"
  | endInString => "EOF while parsing a string"
  | endInArray => "EOF while parsing a list"
  | endInObject => "EOF while parsing an object"
  | expectedValue => "expected value"
  | expectedIdent => "expected ident"
  | invalidNumber => "invalid number"
  | numberOutOfRange => "number out of range"
  | controlCharacter => "control character (\\u0000-\\u001F) found while parsing a string"
  | invalidEscape => "invalid escape"
  | loneSurrogate => "lone leading surrogate in hex escape"
  | endOfHexEscape => "unexpected end of hex escape"
  | expectedItemEnd => "expected `,` or `]`"
  | expectedMemberEnd => "expected `,` or `\x7d`"
  | trailingComma => "trailing comma"
  | keyNotString => "key must be a string"
  | expectedColon => "expected `:`"
  | trailingCharacters => "trailing characters"

structure Fault where
  problem : Problem
  offset : Nat
  deriving Repr, DecidableEq

/-! ## Numbers -/

/-- How far a numeral was read. -/
inductive NumeralStage
  /-- Behind the minus sign. -/
  | sign
  /-- Behind a leading zero, which stands alone. -/
  | zero
  | integer
  /-- The digits before the point no longer fit 64 bits. -/
  | long
  | point
  | fraction
  /-- The digits behind the point no longer fit 64 bits. -/
  | longFraction
  | mark
  | markSign (down : Bool)
  | power (down : Bool) (value : Nat)
  /-- The power of ten is so small, or the digits are such, that the number is zero. -/
  | vanished
  deriving Repr, DecidableEq

/-- A numeral of which a part was read. -/
structure PartialNumeral where
  numeral : Numeral
  stage : NumeralStage
  deriving Repr, DecidableEq

namespace PartialNumeral

def digit? (c : Char) : Option Nat :=
  if '0' ≤ c ∧ c ≤ '9' then some (c.toNat - 48) else none

/-- The first character of a number, if this is one. -/
def start? (c : Char) : Option PartialNumeral :=
  if c = '-' then some ⟨⟨true, 0, 0⟩, .sign⟩
  else (digit? c).map fun d => ⟨⟨false, d, 0⟩, if d = 0 then .zero else .integer⟩

/-- The significand with one more digit, if it still fits 64 bits. -/
def grow? (significand d : Nat) : Option Nat :=
  let n := significand * 10 + d
  if n < Nat.pow 2 64 then some n else none

/-- What a character does to a numeral. -/
inductive Step
  | more (n : PartialNumeral)
  /-- The character does not belong to the numeral. -/
  | over
  | refused (problem : Problem)

/-- Behind a digit, where a point or a power of ten may follow. -/
def afterDigits (n : Numeral) (pointAllowed : Bool) (c : Char) : Step :=
  if c = '.' ∧ pointAllowed then .more ⟨n, .point⟩
  else if c = 'e' ∨ c = 'E' then .more ⟨n, .mark⟩
  else .over

/-- One more digit of the power of ten. It may not pass 31 bits, unless the number
is zero all the same. -/
def powerDigit (n : Numeral) (down : Bool) (value d : Nat) : Step :=
  let value := value * 10 + d
  if value < Nat.pow 2 31 then .more ⟨n, .power down value⟩
  else if n.significand ≠ 0 ∧ !down then .refused .numberOutOfRange
  else .more ⟨n, .vanished⟩

def step (p : PartialNumeral) (c : Char) : Step :=
  let n := p.numeral
  match p.stage, digit? c with
  | .sign, none => .refused .invalidNumber
  | .sign, some d => .more ⟨{ n with significand := d }, if d = 0 then .zero else .integer⟩
  | .zero, none => afterDigits n true c
  | .zero, some _ => .refused .invalidNumber
  | .integer, none => afterDigits n true c
  | .integer, some d =>
    match grow? n.significand d with
    | some m => .more ⟨{ n with significand := m }, .integer⟩
    | none => .more ⟨{ n with exponent := n.exponent + 1 }, .long⟩
  | .long, none => afterDigits n true c
  | .long, some _ => .more ⟨{ n with exponent := n.exponent + 1 }, .long⟩
  | .point, none => .refused .invalidNumber
  | .point, some d => fractionDigit n d
  | .fraction, none => afterDigits n false c
  | .fraction, some d => fractionDigit n d
  | .longFraction, none => afterDigits n false c
  | .longFraction, some _ => .more p
  | .mark, none =>
    if c = '+' then .more ⟨n, .markSign false⟩
    else if c = '-' then .more ⟨n, .markSign true⟩
    else .refused .invalidNumber
  | .mark, some d => .more ⟨n, .power false d⟩
  | .markSign _, none => .refused .invalidNumber
  | .markSign down, some d => .more ⟨n, .power down d⟩
  | .power .., none => .over
  | .power down value, some d => powerDigit n down value d
  | .vanished, none => .over
  | .vanished, some _ => .more p
where
  fractionDigit (n : Numeral) (d : Nat) : Step :=
    match grow? n.significand d with
    | some m => .more ⟨{ n with significand := m, exponent := n.exponent - 1 }, .fraction⟩
    | none => .more ⟨n, .longFraction⟩

/-- The number that was read, where a numeral may end. -/
def finish (p : PartialNumeral) : Except Problem Number :=
  let n := p.numeral
  match p.stage with
  | .sign | .point | .mark | .markSign _ => .error .endInValue
  | .zero | .integer => .ok n.toWhole
  | .long | .fraction | .longFraction => double n
  | .power down value =>
    double { n with exponent := if down then n.exponent - value else n.exponent + value }
  | .vanished => .ok (.double (if n.negative then -0.0 else 0.0))
where
  double (n : Numeral) : Except Problem Number :=
    match n.toDouble? with
    | some x => .ok (.double x)
    | none => .error .numberOutOfRange

end PartialNumeral

/-! ## Strings -/

/-- How far an escape sequence was read. -/
inductive EscapeStage
  | none
  | backslash
  /-- Behind `\u`: the code unit it completes, if any, the number of bytes read, the
  value of the digits, and whether all of them were digits. -/
  | hex (high : Option Nat) (bytes value : Nat) (valid : Bool)
  /-- Behind a high surrogate, and behind the backslash that follows it. -/
  | high (unit : Nat)
  | highBackslash (unit : Nat)
  deriving Repr, DecidableEq

/-- A string of which a part was read, the last character first. -/
structure PartialString where
  read : List Char
  stage : EscapeStage
  deriving Repr, DecidableEq

namespace PartialString

def empty : PartialString := ⟨[], .none⟩

inductive Step
  | more (s : PartialString)
  | over (s : String)
  /-- A problem, told so many bytes behind those read before the character. -/
  | refused (problem : Problem) (bytes : Nat)

def letter? (c : Char) : Option Char :=
  if c = '\"' ∨ c = '\\' ∨ c = '/' then some c
  else if c = 'b' then some '\x08'
  else if c = 'f' then some '\x0c'
  else if c = 'n' then some '\n'
  else if c = 'r' then some '\r'
  else if c = 't' then some '\t'
  else none

def hexValue? (c : Char) : Option Nat :=
  if '0' ≤ c ∧ c ≤ '9' then some (c.toNat - 48)
  else if 'a' ≤ c ∧ c ≤ 'f' then some (c.toNat - 87)
  else if 'A' ≤ c ∧ c ≤ 'F' then some (c.toNat - 55)
  else none

/-- What follows four hexadecimal digits: a character, the first half of one, or
the second half. -/
def unit (read : List Char) (high : Option Nat) (n bytes : Nat) : Step :=
  match high with
  | none =>
    if 0xDC00 ≤ n ∧ n ≤ 0xDFFF then .refused .loneSurrogate bytes
    else if 0xD800 ≤ n ∧ n ≤ 0xDBFF then .more ⟨read, .high n⟩
    else .more ⟨Char.ofNat n :: read, .none⟩
  | some high =>
    if 0xDC00 ≤ n ∧ n ≤ 0xDFFF then
      .more ⟨Char.ofNat ((high - 0xD800) * 1024 + (n - 0xDC00) + 0x10000) :: read, .none⟩
    else .refused .loneSurrogate bytes

def step (s : PartialString) (c : Char) : Step :=
  match s.stage with
  | .none =>
    if c = '\"' then .over (String.ofList s.read.reverse)
    else if c = '\\' then .more ⟨s.read, .backslash⟩
    else if c.toNat < 32 then .refused .controlCharacter 1
    else .more ⟨c :: s.read, .none⟩
  | .backslash =>
    if c = 'u' then .more ⟨s.read, .hex none 0 0 true⟩
    else
      match letter? c with
      | some c => .more ⟨c :: s.read, .none⟩
      | none => .refused .invalidEscape 1
  | .hex high bytes value valid =>
    let digit := hexValue? c
    let value := value * 16 + digit.getD 0
    let valid := valid && digit.isSome
    if bytes + c.utf8Size < 4 then .more ⟨s.read, .hex high (bytes + c.utf8Size) value valid⟩
    else if valid then unit s.read high value (4 - bytes)
    else .refused .invalidEscape (4 - bytes)
  | .high unit =>
    if c = '\\' then .more ⟨s.read, .highBackslash unit⟩ else .refused .endOfHexEscape 1
  | .highBackslash unit =>
    if c = 'u' then .more ⟨s.read, .hex (some unit) 0 0 true⟩ else .refused .endOfHexEscape 1

end PartialString

/-! ## Documents -/

/-- An open array or object with what it holds so far. -/
inductive Frame
  /-- The items, the last one first. -/
  | array (items : List Json)
  /-- The members, and the key whose value is read. -/
  | object (members : List (String × Json)) (key : String)

/-- What is due. -/
inductive Phase
  | value
  /-- Behind an opening bracket. -/
  | firstItem
  /-- Behind a comma in an array. -/
  | nextItem
  /-- Behind an opening brace. -/
  | firstKey
  /-- Behind a comma in an object of these members. -/
  | nextKey (members : List (String × Json))
  /-- Inside of a key. -/
  | key (members : List (String × Json)) (s : PartialString)
  | colon (members : List (String × Json)) (key : String)
  /-- Behind a value that no bracket holds yet. -/
  | after (value : Json)
  /-- Inside of a word that stands for a value: its next character, and the rest. -/
  | word (next : Char) (rest : List Char) (value : Json)
  | number (n : PartialNumeral)
  | string (s : PartialString)

/-- The open brackets, the innermost first, and what is due inside of them. -/
structure Place where
  stack : List Frame
  phase : Phase

namespace Place

def isBlank (c : Char) : Bool := c = ' ' || c = '\n' || c = '\t' || c = '\r'

/-- A character that may begin a value. -/
def beginValue (stack : List Frame) (c : Char) : Except Problem Place :=
  if c = '\"' then .ok ⟨stack, .string .empty⟩
  else if c = '[' then .ok ⟨stack, .firstItem⟩
  else if c = '\x7b' then .ok ⟨stack, .firstKey⟩
  else if c = 'n' then .ok ⟨stack, .word 'u' ['l', 'l'] .null⟩
  else if c = 't' then .ok ⟨stack, .word 'r' ['u', 'e'] (.bool true)⟩
  else if c = 'f' then .ok ⟨stack, .word 'a' ['l', 's', 'e'] (.bool false)⟩
  else
    match PartialNumeral.start? c with
    | some n => .ok ⟨stack, .number n⟩
    | none => .error .expectedValue

/-- A character behind a value that is no white space. -/
def afterValue (value : Json) (c : Char) : List Frame → Except Problem Place
  | [] => .error .trailingCharacters
  | .array items :: stack =>
    if c = ',' then .ok ⟨.array (value :: items) :: stack, .nextItem⟩
    else if c = ']' then .ok ⟨stack, .after (.array (value :: items).reverse)⟩
    else .error .expectedItemEnd
  | .object members key :: stack =>
    if c = ',' then .ok ⟨stack, .nextKey (insertMember key value members)⟩
    else if c = '\x7d' then .ok ⟨stack, .after (.object (insertMember key value members))⟩
    else .error .expectedMemberEnd

/-- A character outside of words, numbers and strings. -/
def between (stack : List Frame) (phase : Phase) (c : Char) : Except Problem Place :=
  if isBlank c then .ok ⟨stack, phase⟩
  else
    match phase with
    | .firstItem =>
      if c = ']' then .ok ⟨stack, .after (.array [])⟩ else beginValue (.array [] :: stack) c
    | .nextItem => if c = ']' then .error .trailingComma else beginValue stack c
    | .firstKey =>
      if c = '\x7d' then .ok ⟨stack, .after (.object [])⟩
      else if c = '\"' then .ok ⟨stack, .key [] .empty⟩
      else .error .keyNotString
    | .nextKey members =>
      if c = '\x7d' then .error .trailingComma
      else if c = '\"' then .ok ⟨stack, .key members .empty⟩
      else .error .keyNotString
    | .colon members key =>
      if c = ':' then .ok ⟨.object members key :: stack, .value⟩ else .error .expectedColon
    | .after value => afterValue value c stack
    | _ => beginValue stack c

/-- The end of the text behind a value. -/
def endAfter (value : Json) : List Frame → Except Problem Json
  | [] => .ok value
  | .array _ :: _ => .error .endInArray
  | .object .. :: _ => .error .endInObject

end Place

/-- A place, and the number of bytes before it. -/
structure State where
  offset : Nat
  place : Place

namespace State

def start : State := ⟨0, [], .value⟩

/-- Tells a problem at a byte offset. -/
def tell {α : Type} (offset : Nat) : Except Problem α → Except Fault α
  | .ok a => .ok a
  | .error problem => .error ⟨problem, offset⟩

/-- The place behind a character. -/
def move (state : State) (c : Char) : Except Fault Place :=
  let here := state.offset + 1
  let stack := state.place.stack
  match state.place.phase with
  | .word next rest value =>
    if c = next then
      match rest with
      | [] => .ok ⟨stack, .after value⟩
      | next :: rest => .ok ⟨stack, .word next rest value⟩
    else .error ⟨.expectedIdent, here⟩
  | .number n =>
    match n.step c with
    | .more n => .ok ⟨stack, .number n⟩
    | .refused problem => .error ⟨problem, here⟩
    | .over =>
      match n.finish with
      | .ok n => tell here (Place.between stack (.after (.number n)) c)
      | .error problem => .error ⟨problem, state.offset⟩
  | .key members s =>
    match s.step c with
    | .more s => .ok ⟨stack, .key members s⟩
    | .refused problem bytes => .error ⟨problem, state.offset + bytes⟩
    | .over key => .ok ⟨stack, .colon members key⟩
  | .string s =>
    match s.step c with
    | .more s => .ok ⟨stack, .string s⟩
    | .refused problem bytes => .error ⟨problem, state.offset + bytes⟩
    | .over s => .ok ⟨stack, .after (.string s)⟩
  | phase => tell here (Place.between stack phase c)

/-- Takes one character. -/
def step (state : State) (c : Char) : Except Fault State :=
  (state.move c).map fun place => ⟨state.offset + c.utf8Size, place⟩

/-- The end of the text. -/
def finish (state : State) : Except Fault Json :=
  tell state.offset <|
    match state.place.phase with
    | .value | .nextItem | .nextKey _ | .word .. => .error .endInValue
    | .firstItem => .error .endInArray
    | .firstKey | .colon .. => .error .endInObject
    | .key .. | .string _ => .error .endInString
    | .after value => Place.endAfter value state.place.stack
    | .number n => n.finish >>= fun n => Place.endAfter (.number n) state.place.stack

/-- Takes all characters of a text. -/
def run (state : State) (s : List Char) : Except Fault State := s.foldlM step state

theorem run_append (state : State) (s t : List Char) :
    state.run (s ++ t) = state.run s >>= (run · t) := by
  simp [run, List.foldlM_append]

end State

/-- The value of a document. -/
def read (text : List Char) : Except Fault Json :=
  State.start.run text >>= State.finish

end CTree.Json
