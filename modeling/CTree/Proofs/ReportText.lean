import CTree.Report.Summary
import Mathlib.Tactic

/-!
# The text of a report

A report is read line by line and without its colours. Lines that have no line feed
of their own are found again in the text that ends each of them with one. Colours are
set by sequences between the characters of the report, and without these sequences it
is the report that has no colours.
-/
namespace CTree.Report

variable {s t text : List Char} {lines : List (List Char)}

/-! ## Lines -/

theorem splitLines_cons (c : Char) (text : List Char) :
    splitLines (c :: text) =
      if c = '\n' then [] :: splitLines text
      else match splitLines text with
        | [] => [[c]]
        | line :: lines => (c :: line) :: lines := rfl

theorem splitLines_eq_splitOn (text : List Char) : splitLines text = text.splitOn '\n' := by
  induction text with
  | nil => rfl
  | cons c text ih =>
    rw [splitLines_cons, ih, List.splitOn_cons_eq_if_modifyHead]
    obtain ⟨line, lines, hlines⟩ := List.exists_cons_of_ne_nil (List.splitOn_ne_nil '\n' text)
    simp [hlines]

theorem splitLines_append (s t : List Char) :
    splitLines (s ++ '\n' :: t) = splitLines s ++ splitLines t := by
  simp only [splitLines_eq_splitOn, List.splitOn_append_cons_self]

theorem splitLines_of_not_mem (h : '\n' ∉ s) : splitLines s = [s] := by
  rw [splitLines_eq_splitOn, List.splitOn_eq_singleton h]

theorem splitLines_ne_nil (text : List Char) : splitLines text ≠ [] := by
  rw [splitLines_eq_splitOn]
  exact List.splitOn_ne_nil '\n' text

/-- The last line of a text and the first one behind it become one line. -/
theorem exists_splitLines_append (s t : List Char) :
    ∃ front last first rest, splitLines s = front ++ [last] ∧ splitLines t = first :: rest ∧
      splitLines (s ++ t) = front ++ (last ++ first) :: rest := by
  obtain ⟨first, rest, ht⟩ := List.exists_cons_of_ne_nil (splitLines_ne_nil t)
  induction s with
  | nil => exact ⟨[], [], first, rest, rfl, ht, ht⟩
  | cons c s ih =>
    obtain ⟨front, last, first', rest', hs, ht', happend⟩ := ih
    rw [List.cons_append, splitLines_cons, splitLines_cons, hs, happend]
    by_cases hc : c = '\n'
    · exact ⟨[] :: front, last, first', rest', by simp [hc], ht', by simp [hc]⟩
    · cases front with
      | nil => exact ⟨[], c :: last, first', rest', by simp [hc], ht', by simp [hc]⟩
      | cons line front =>
        exact ⟨(c :: line) :: front, last, first', rest', by simp [hc], ht', by simp [hc]⟩

theorem intercalate_splitLines (text : List Char) :
    ['\n'].intercalate (splitLines text) = text := by
  rw [splitLines_eq_splitOn, List.intercalate_splitOn]

/-- A text is known by its lines. -/
theorem splitLines_injective (h : splitLines s = splitLines t) : s = t := by
  rw [← intercalate_splitLines s, h, intercalate_splitLines]

/-- Lines that each end with a line feed, in front of another text. -/
theorem splitLines_flatMap (h : ∀ line ∈ lines, '\n' ∉ line) (rest : List Char) :
    splitLines (lines.flatMap (· ++ ['\n']) ++ rest) = lines ++ splitLines rest := by
  induction lines with
  | nil => rfl
  | cons line lines ih =>
    obtain ⟨hline, hlines⟩ := List.forall_mem_cons.1 h
    rw [List.flatMap_cons, List.append_assoc, List.append_assoc, List.singleton_append,
      splitLines_append, splitLines_of_not_mem hline, ih hlines]
    rfl

/-- Lines that are joined to a text are shown again, if there is something in each of them
and no carriage return. -/
theorem shownLines_intercalate
    (h : ∀ line ∈ lines, line ≠ [] ∧ '\n' ∉ line ∧ '\r' ∉ line) :
    shownLines (['\n'].intercalate lines) = lines := by
  by_cases hne : lines = []
  · rw [hne]
    rfl
  have hsplit : splitLines (['\n'].intercalate lines) = lines := by
    rw [splitLines_eq_splitOn, List.splitOn_intercalate '\n' (fun line hl => (h line hl).2.1) hne]
  obtain ⟨front, last, rfl⟩ := (List.eq_nil_or_concat' lines).resolve_left hne
  have hended : shownLines.ended (['\n'].intercalate (front ++ [last])) = front := by
    rw [shownLines.ended, hsplit, List.dropLast_concat]
    refine (List.map_congr_left fun line hline => ?_).trans (List.map_id front)
    have hreturn := (h line (List.mem_append_left _ hline)).2.2
    rw [if_neg fun hlast => hreturn (List.mem_of_getLast? hlast)]
    rfl
  obtain ⟨c, last, rfl⟩ := List.exists_cons_of_ne_nil (h last List.mem_concat_self).1
  rw [shownLines, hsplit, List.getLast?_concat]
  exact congrArg (· ++ [c :: last]) hended

/-! ## Styles -/

/-- The codes of the style sequences. -/
def styleCodes : List String := ["0", "1", "31", "32", "33"]

/-- The first text is the second one with style sequences put in. -/
inductive Styled : List Char → List Char → Prop
  | nil : Styled [] []
  | char (c : Char) {s t : List Char} (h : Styled s t) : Styled (c :: s) (c :: t)
  | style {code : String} (hcode : code ∈ styleCodes) {s t : List Char} (h : Styled s t) :
    Styled ((escape code).toList ++ s) t

namespace Styled
variable {s' t' : List Char}

theorem append (h : Styled s t) (h' : Styled s' t') : Styled (s ++ s') (t ++ t') := by
  induction h with
  | nil => exact h'
  | char c _ ih => exact .char c ih
  | style hcode _ ih =>
    rw [List.append_assoc]
    exact .style hcode ih

theorem refl (s : List Char) : Styled s s := by
  induction s with
  | nil => exact .nil
  | cons c s ih => exact .char c ih

theorem escape {code : String} (h : code ∈ styleCodes) : Styled (Report.escape code).toList [] := by
  simpa using Styled.style h .nil

theorem reset (coloured : Bool) : Styled (Report.reset coloured).toList [] := by
  cases coloured with
  | false => exact .nil
  | true => exact escape (by decide)

theorem setColour (coloured bold : Bool) (colour : Colour) :
    Styled (Report.setColour coloured bold colour).toList [] := by
  have hcolour : Styled (Report.escape colour.code).toList [] := by
    cases colour <;> exact escape (by decide)
  have hreset : Styled (Report.escape "0").toList [] := escape (by decide)
  have hbold : Styled (if bold then Report.escape "1" else "").toList [] := by
    cases bold <;> [exact .nil; exact escape (by decide)]
  cases coloured with
  | false => exact .nil
  | true => simpa [Report.setColour] using (hreset.append hbold).append hcolour

/-- Parts of which each is styled make a styled text. -/
theorem flatMap {α : Type} {f g : α → List Char} {l : List α} (h : ∀ x ∈ l, Styled (f x) (g x)) :
    Styled (l.flatMap f) (l.flatMap g) := by
  induction l with
  | nil => exact .nil
  | cons x l ih =>
    obtain ⟨hx, hl⟩ := List.forall_mem_cons.1 h
    simpa using hx.append (ih hl)

end Styled

/-! ## What is written -/

theorem toList_foldl_append {α : Type} (f : α → String) (l : List α) (start : String) :
    (l.foldl (fun out x => out ++ f x) start).toList =
      start.toList ++ l.flatMap fun x => (f x).toList := by
  induction l generalizing start with
  | nil => simp
  | cons x l ih => simp [ih]

theorem toList_writeRun (coloured : Bool) (run : Run) :
    (writeRun coloured run).toList = (styleOfRun coloured run.change).toList ++
      (shownLines run.text).flatMap fun line => (mark run.change).toList ++ line ++ ['\n'] := by
  have hline (out : String) (line : List Char) :
      out ++ mark run.change ++ String.ofList line ++ "\n" =
        out ++ (mark run.change ++ String.ofList line ++ "\n") := by
    simp only [String.append_assoc]
  simp only [writeRun, hline, toList_foldl_append]
  simp

theorem styled_writeRun (coloured : Bool) (run : Run) :
    Styled (writeRun coloured run).toList (writeRun false run).toList := by
  have hstyle : Styled (styleOfRun coloured run.change).toList
      (styleOfRun false run.change).toList := by
    cases run.change with
    | same => exact .reset coloured
    | removed | added => exact .setColour coloured false _
  rw [toList_writeRun, toList_writeRun]
  exact hstyle.append (.refl _)

theorem toList_writeDetails_failed (coloured : Bool) (expected actual : String) :
    (writeDetails coloured (.failed expected actual)).toList =
      (diff expected actual).flatMap (fun run => (writeRun coloured run).toList) ++
        (reset coloured).toList := by
  simp [writeDetails, toList_foldl_append]

theorem styled_writeDetails (coloured : Bool) (outcome : Fixture.Outcome) :
    Styled (writeDetails coloured outcome).toList (writeDetails false outcome).toList := by
  cases outcome with
  | passed | blessed | errored => exact .refl _
  | failed expected actual =>
    rw [toList_writeDetails_failed, toList_writeDetails_failed]
    exact (Styled.flatMap fun run _ => styled_writeRun coloured run).append (.reset coloured)

theorem toList_write (coloured : Bool) (summary : Fixture.Summary) :
    (write coloured summary).toList =
      (summary.results.flatMap fun r => (writeResult coloured r.1 r.2).toList) ++
        '\n' :: (writeCounts coloured summary).toList := by
  simp [write, toList_foldl_append]

end CTree.Report
