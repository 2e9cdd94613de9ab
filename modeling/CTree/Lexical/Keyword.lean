import CTree.Lexical.CharClass

/-!
# Reserved words

Each reserved word of C is a token of its own. Two of them may also be written
with leading underscores. A word is reserved only as a whole: `integer` does not
begin with the token `int`.
-/
namespace CTree.Lexical

inductive Keyword
  | kwAuto | kwBreak | kwCase | kwChar | kwConst | kwContinue | kwDefault | kwDo | kwDouble
  | kwElse | kwEnum | kwExtern | kwFloat | kwFor | kwGoto | kwIf | kwInline | kwInt | kwLong
  | kwRegister | kwRestrict | kwReturn | kwShort | kwSigned | kwSizeof | kwStatic | kwStruct
  | kwSwitch | kwTypedef | kwUnion | kwUnsigned | kwVoid | kwVolatile | kwWhile | kwAlignas
  | kwAlignof | kwAtomic | kwBool | kwComplex | kwGeneric | kwNoreturn | kwStaticAssert
  | kwThreadLocal
  deriving Repr, DecidableEq

namespace Keyword

/-- All reserved words, in the order in which they are listed. -/
def all : List Keyword :=
  [.kwAuto, .kwBreak, .kwCase, .kwChar, .kwConst, .kwContinue, .kwDefault, .kwDo, .kwDouble,
   .kwElse, .kwEnum, .kwExtern, .kwFloat, .kwFor, .kwGoto, .kwIf, .kwInline, .kwInt, .kwLong,
   .kwRegister, .kwRestrict, .kwReturn, .kwShort, .kwSigned, .kwSizeof, .kwStatic, .kwStruct,
   .kwSwitch, .kwTypedef, .kwUnion, .kwUnsigned, .kwVoid, .kwVolatile, .kwWhile, .kwAlignas,
   .kwAlignof, .kwAtomic, .kwBool, .kwComplex, .kwGeneric, .kwNoreturn, .kwStaticAssert,
   .kwThreadLocal]

theorem mem_all (k : Keyword) : k ∈ all := by cases k <;> decide

/-- The name of the token, and the ways of writing it. -/
structure Entry where
  name : String
  spellings : List String

def entry : Keyword → Entry
  | .kwAuto => ⟨"KwAuto", ["auto"]⟩
  | .kwBreak => ⟨"KwBreak", ["break"]⟩
  | .kwCase => ⟨"KwCase", ["case"]⟩
  | .kwChar => ⟨"KwChar", ["char"]⟩
  | .kwConst => ⟨"KwConst", ["const"]⟩
  | .kwContinue => ⟨"KwContinue", ["continue"]⟩
  | .kwDefault => ⟨"KwDefault", ["default"]⟩
  | .kwDo => ⟨"KwDo", ["do"]⟩
  | .kwDouble => ⟨"KwDouble", ["double"]⟩
  | .kwElse => ⟨"KwElse", ["else"]⟩
  | .kwEnum => ⟨"KwEnum", ["enum"]⟩
  | .kwExtern => ⟨"KwExtern", ["extern"]⟩
  | .kwFloat => ⟨"KwFloat", ["float"]⟩
  | .kwFor => ⟨"KwFor", ["for"]⟩
  | .kwGoto => ⟨"KwGoto", ["goto"]⟩
  | .kwIf => ⟨"KwIf", ["if"]⟩
  | .kwInline => ⟨"KwInline", ["inline", "__inline__", "__inline"]⟩
  | .kwInt => ⟨"KwInt", ["int"]⟩
  | .kwLong => ⟨"KwLong", ["long"]⟩
  | .kwRegister => ⟨"KwRegister", ["register"]⟩
  | .kwRestrict => ⟨"KwRestrict", ["restrict", "__restrict__", "__restrict"]⟩
  | .kwReturn => ⟨"KwReturn", ["return"]⟩
  | .kwShort => ⟨"KwShort", ["short"]⟩
  | .kwSigned => ⟨"KwSigned", ["signed"]⟩
  | .kwSizeof => ⟨"KwSizeof", ["sizeof"]⟩
  | .kwStatic => ⟨"KwStatic", ["static"]⟩
  | .kwStruct => ⟨"KwStruct", ["struct"]⟩
  | .kwSwitch => ⟨"KwSwitch", ["switch"]⟩
  | .kwTypedef => ⟨"KwTypedef", ["typedef"]⟩
  | .kwUnion => ⟨"KwUnion", ["union"]⟩
  | .kwUnsigned => ⟨"KwUnsigned", ["unsigned"]⟩
  | .kwVoid => ⟨"KwVoid", ["void"]⟩
  | .kwVolatile => ⟨"KwVolatile", ["volatile"]⟩
  | .kwWhile => ⟨"KwWhile", ["while"]⟩
  | .kwAlignas => ⟨"KwAlignas", ["_Alignas"]⟩
  | .kwAlignof => ⟨"KwAlignof", ["_Alignof"]⟩
  | .kwAtomic => ⟨"KwAtomic", ["_Atomic"]⟩
  | .kwBool => ⟨"KwBool", ["_Bool"]⟩
  | .kwComplex => ⟨"KwComplex", ["_Complex"]⟩
  | .kwGeneric => ⟨"KwGeneric", ["_Generic"]⟩
  | .kwNoreturn => ⟨"KwNoreturn", ["_Noreturn"]⟩
  | .kwStaticAssert => ⟨"KwStaticAssert", ["_Static_assert"]⟩
  | .kwThreadLocal => ⟨"KwThreadLocal", ["_Thread_local"]⟩

def name (k : Keyword) : String := k.entry.name

def spellings (k : Keyword) : List String := k.entry.spellings

/-- A spelling of the word that ends where the word ends. -/
def pattern (k : Keyword) : Pattern := .seq (.firstOf (k.spellings.map .text)) wordEnd

end Keyword

/-- Any reserved word. -/
def reserved : Pattern := .firstOf (Keyword.all.map Keyword.pattern)

end CTree.Lexical
