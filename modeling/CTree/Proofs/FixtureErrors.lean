import CTree.Proofs.FixtureComparison

/-!
# What can go wrong with a fixture

A fixture errors where one of its files cannot be read or written, where its input has no tree,
or one that is too deep, and where its document is missing or not that of a tree. The
message names the file if it is about one. It is one line if the path of the file is.
-/
namespace CTree.Fixture
open CTree.Store (Path readSource readTree convertFile)

/-- What can go wrong with a fixture. -/
inductive Errs (fixture : Fixture) : Error → Prop
  | unreadable {path : Path} (h : path = fixture.input ∨ path = fixture.expected)
    (refusal : Store.Refusal) : Errs fixture (.unreadable path refusal)
  | unwritable : Errs fixture (.unwritable fixture.expected)
  | missingExpected : Errs fixture (.missingExpected fixture.expected)
  | source (fault : Parse.Fault) (text : List Char) : Errs fixture (.source fault text)
  | notTree (cause : Error) : Errs fixture (.notTree fixture.expected cause)
  | tooDeep (depth : Nat) : Errs fixture (.tooDeep depth)

namespace Errs
variable {fixture : Fixture} {store : Store} {e : Error} {blessing : Bool}

end Errs

/-! ## One line for each message -/

theorem not_mem_toDigits (n : Nat) : '\n' ∉ Nat.toDigits 10 n := fun hmem => by
  cases Nat.isDigit_of_mem_toDigits (by decide) (by decide) hmem

theorem toString_text (text : String) : toString text = text := rfl

theorem not_mem_more {texts : List String} (h : ∀ text ∈ texts, '\n' ∉ text.toList) :
    '\n' ∉ (Parse.alternatives.more texts).toList := by
  fun_induction Parse.alternatives.more texts with
  | case1 => decide
  | case2 z => simpa using h
  | case3 b others hne ih =>
    obtain ⟨hb, hothers⟩ := List.forall_mem_cons.1 h
    simpa [hb] using ih hothers

theorem not_mem_alternatives {texts : List String} (h : ∀ text ∈ texts, '\n' ∉ text.toList) :
    '\n' ∉ (Parse.alternatives texts).toList := by
  fun_cases Parse.alternatives texts with
  | case1 => decide
  | case2 a => simpa using h
  | case3 a b => simpa using h
  | case4 a others hne =>
    obtain ⟨ha, hothers⟩ := List.forall_mem_cons.1 h
    simpa [ha] using not_mem_more hothers

/-- A line feed is one of the bytes of a text. -/
theorem mem_toByteArray {text : String} (h : '\n' ∈ text.toList) :
    10 ∈ text.toByteArray.data.toList := by
  rw [← String.utf8Encode_toList, List.utf8Encode, List.data_toByteArray, List.mem_flatMap]
  exact ⟨'\n', h, by decide⟩

theorem not_mem_description (symbol : Grammar.Symbol) : '\n' ∉ symbol.description.toList := by
  -- The bytes of a literal are at hand, while its characters are decoded from them.
  have hall : ∀ symbol ∈ Grammar.Symbol.all,
      10 ∉ symbol.description.toByteArray.data.toList := by
    decide +kernel
  exact fun hmem => hall symbol symbol.mem_all (mem_toByteArray hmem)

theorem not_mem_message (fault : Parse.Fault) :
    '\n' ∉ (fault.message Grammar.Symbol.description).toList := by
  rw [Parse.Fault.message]
  split
  · decide
  · rw [String.toList_append, List.mem_append, not_or]
    exact ⟨by decide, not_mem_alternatives
      (List.forall_mem_map.2 fun symbol _ => not_mem_description symbol)⟩

theorem Errs.not_mem {fixture : Fixture} {e : Error} (h : Errs fixture e)
    (hinput : '\n' ∉ fixture.input.text.toList)
    (hexpected : '\n' ∉ fixture.expected.text.toList) : '\n' ∉ e.diagnostic.text.toList := by
  cases h with
  | unreadable hpath refusal =>
    rcases hpath with rfl | rfl <;>
      simp [Error.diagnostic, Diagnostic.text, Diagnostic.plain, Kind.heading, toString_text, *]
  | unwritable | missingExpected | notTree cause =>
    simp [Error.diagnostic, Diagnostic.text, Diagnostic.plain, Kind.heading, toString_text, *]
  | source fault text =>
    simp [Error.diagnostic, Error.ofSource, Diagnostic.text, Kind.heading, toString_text,
      not_mem_message, not_mem_toDigits]
  | tooDeep depth =>
    simp [Error.diagnostic, Diagnostic.text, Diagnostic.plain, Kind.heading, toString_text,
      not_mem_toDigits]

end CTree.Fixture
