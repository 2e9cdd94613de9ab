import CTree.Proofs.DocumentLayouts
import CTree.Proofs.ReportText

/-!
# The lines of a document

In the pretty layout every line of a document holds something, and no line holds a
control character: line ends of a label are escaped. So a document that is cut into
lines and joined again is the same document.
-/
namespace CTree.Json
open CTree.Report

variable {s t : List Char}

lemma InLine.not_mem {c : Char} (h : InLine s) (hc : c.toNat < 32) : c ∉ s := fun hmem => by
  have := h c hmem
  omega

/-! ## Texts of full lines -/

/-- There is something in each line of the text, and nothing that ends a line elsewhere. -/
def FullLines (s : List Char) : Prop := ∀ line ∈ splitLines s, line ≠ [] ∧ InLine line

namespace FullLines

theorem of_inLine (h : InLine s) (hne : s ≠ []) : FullLines s := by
  rw [FullLines, splitLines_of_not_mem (h.not_mem (by decide))]
  simpa using ⟨hne, h⟩

theorem append_lineFeed (hs : FullLines s) (ht : FullLines t) : FullLines (s ++ '\n' :: t) := by
  intro line hline
  rw [splitLines_append] at hline
  exact (List.mem_append.1 hline).elim (hs line) (ht line)

theorem append (hs : FullLines s) (ht : FullLines t) : FullLines (s ++ t) := by
  obtain ⟨front, last, first, rest, hsplit, hsplit', happend⟩ := exists_splitLines_append s t
  rw [FullLines, hsplit] at hs
  rw [FullLines, hsplit'] at ht
  rw [FullLines, happend]
  simp only [List.forall_mem_append, List.forall_mem_cons] at hs ht ⊢
  obtain ⟨hfront, ⟨hlast, hlast'⟩, -⟩ := hs
  obtain ⟨⟨-, hfirst⟩, hrest⟩ := ht
  exact ⟨hfront, ⟨by simp [hlast], hlast'.append hfirst⟩, hrest⟩

/-- A line end with an indentation between two texts. -/
theorem lineBreak (level : Nat) : ∃ blanks, InLine blanks ∧
    Writes (Layout.pretty.lineBreak level) ('\n' :: blanks) := by
  induction level with
  | zero => exact ⟨[], by simp [InLine], .push '\n'⟩
  | succ level ih =>
    obtain ⟨blanks, hblanks, hwrites⟩ := ih
    refine ⟨blanks ++ "    ".toList, hblanks.append ?_, hwrites.comp (.text "    ")⟩
    unfold InLine
    decide

theorem inLine_append (hs : InLine s) (ht : FullLines t) : FullLines (s ++ t) := by
  cases s with
  | nil => exact ht
  | cons c s => exact (of_inLine hs (List.cons_ne_nil c s)).append ht

end FullLines

/-- The writer appends full lines. -/
def WritesLines (write : String → String) : Prop := ∃ s, Writes write s ∧ FullLines s

namespace WritesLines
variable {f g : String → String}

theorem comp (hf : WritesLines f) (hg : WritesLines g) : WritesLines (fun out => g (f out)) := by
  obtain ⟨s, hs, hlines⟩ := hf
  obtain ⟨t, ht, hlines'⟩ := hg
  exact ⟨s ++ t, hs.comp ht, hlines.append hlines'⟩

/-- What stands on a new line. -/
theorem comp_lineBreak (hf : WritesLines f) (level : Nat) (hg : WritesLines g) :
    WritesLines (fun out => g (Layout.pretty.lineBreak level (f out))) := by
  obtain ⟨s, hs, hlines⟩ := hf
  obtain ⟨t, ht, hlines'⟩ := hg
  obtain ⟨blanks, hblanks, hbreak⟩ := FullLines.lineBreak level
  refine ⟨s ++ '\n' :: (blanks ++ t), ?_, hlines.append_lineFeed (.inLine_append hblanks hlines')⟩
  simpa using (hs.comp hbreak).comp ht

theorem inLine (h : Writes f s) (hline : InLine s) (hne : s ≠ []) : WritesLines f :=
  ⟨s, h, .of_inLine hline hne⟩

theorem push {c : Char} (h : 32 ≤ c.toNat) : WritesLines (·.push c) :=
  inLine (.push c) (by simpa [InLine] using h) (List.cons_ne_nil c [])

theorem string (label : String) : WritesLines (writeString label) :=
  inLine (.string label) (inLine_string label) (List.cons_ne_nil _ _)

end WritesLines
end CTree.Json

namespace CTree.Tree
open CTree.Json CTree.Report

theorem writesLines_node {write : String → String} (h : WritesLines write) (level : Nat)
    (label : String) :
    WritesLines fun out => closeNode .pretty level (write (openNode .pretty level label out)) := by
  have hcolon : WritesLines (· ++ Layout.pretty.colon) :=
    .inLine (.text ": ") (by unfold InLine; decide) (by decide)
  have hopen := (WritesLines.push (c := '\x7b') (by decide)).comp_lineBreak (level + 1)
    ((WritesLines.string label).comp hcolon)
  exact (hopen.comp h).comp_lineBreak level (.push (by decide))

mutual

theorem writesLines_write : (t : Tree) → (level : Nat) → WritesLines (t.write .pretty level)
  | leaf label, level => by
    simp only [write]
    exact .string label
  | unary label child, level => by
    simp only [write]
    exact writesLines_node (writesLines_write child (level + 1)) level label
  | nary label children, level => by
    simp only [write]
    exact writesLines_node (writesLines_writeArray children (level + 1)) level label

theorem writesLines_writeArray : (ts : List Tree) → (level : Nat) →
    WritesLines (writeArray .pretty level ts)
  | [], level => by
    simp only [writeArray]
    exact .inLine (.text "[]") (by unfold InLine; decide) (by decide)
  | t :: ts, level => by
    have hfirst := (WritesLines.push (c := '[') (by decide)).comp_lineBreak (level + 1)
      (writesLines_write t (level + 1))
    simp only [writeArray]
    exact (writesLines_writeOthers ts (level + 1) hfirst).comp_lineBreak level (.push (by decide))

/-- Further children, behind what was written before. -/
theorem writesLines_writeOthers : (ts : List Tree) → (level : Nat) → {f : String → String} →
    WritesLines f → WritesLines (fun out => writeOthers .pretty level ts (f out))
  | [], level, f, hf => by
    simp only [writeOthers]
    exact hf
  | t :: ts, level, f, hf => by
    have hnext := (hf.comp (.push (c := ',') (by decide))).comp_lineBreak level
      (writesLines_write t level)
    simp only [writeOthers]
    exact writesLines_writeOthers ts level hnext

end

/-- The pretty document of a tree has no empty line and no other line ends. -/
theorem fullLines_render (tree : Tree) : FullLines (tree.toJson.render .pretty).toList := by
  obtain ⟨s, hwrites, hlines⟩ := writesLines_write tree 0
  have hs : (tree.toJson.render .pretty).toList = s := by
    rw [render, ← Tree.write_eq, hwrites]
    rfl
  exact hs ▸ hlines

end CTree.Tree
