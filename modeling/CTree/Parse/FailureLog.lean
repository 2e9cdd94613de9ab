import CTree.Grammar.Symbol

/-!
# What was wanted, and where

While a text is read many symbols are tried in vain. The log keeps those that
failed at the furthest place any symbol has failed at so far. A symbol that fails
after its parts failed at the same place stands for them, unless a single part
failed, which says more than the symbol itself.
-/
namespace CTree.Parse
open CTree.Grammar

structure FailureLog where
  offset : Nat
  /-- The last one first. -/
  wanted : List Symbol
  deriving Repr, DecidableEq

namespace FailureLog

def empty : FailureLog := ⟨0, []⟩

/-- The number of symbols logged at a place. -/
def countAt (log : FailureLog) (offset : Nat) : Nat :=
  if log.offset = offset then log.wanted.length else 0

/-- Records that a symbol failed which was begun at `offset`, when `before` symbols
were logged there. -/
def note (log : FailureLog) (before offset : Nat) (symbol : Symbol) : FailureLog :=
  if log.countAt offset = before + 1 then log
  else if log.offset < offset then ⟨offset, [symbol]⟩
  else if log.offset = offset then
    ⟨offset, symbol :: log.wanted.drop (log.wanted.length - before)⟩
  else log

theorem offset_le_note (log : FailureLog) (before offset : Nat) (symbol : Symbol) :
    log.offset ≤ (log.note before offset symbol).offset := by
  unfold note
  split
  · exact Nat.le_refl _
  · split
    · exact Nat.le_of_lt ‹_›
    · split
      · exact Nat.le_of_eq ‹_›
      · exact Nat.le_refl _

end FailureLog
end CTree.Parse
