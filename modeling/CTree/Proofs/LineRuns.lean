import CTree.Report.LineDiff
import Mathlib.Tactic

/-!
# The runs of two texts

The walk back through the table goes up, or to the left, or both at a line that the
texts share. So it gathers a common subsequence of their lines, whatever the table
says. The runs that are told along a common subsequence hold every line of both texts
once and in its order: a turn takes the lines before the next common one from each
text, and takes at least one line while there is any.
-/
namespace CTree.Report

variable {a b common : List String}

/-! ## The common lines -/

lemma take_succ_getD {a : List String} {i : Nat} (h : i < a.length) :
    a.take (i + 1) = a.take i ++ [a.toArray.getD i ""] := by
  rw [List.take_add_one, List.getElem?_eq_getElem h, Array.getD_eq_getD_getElem?,
    List.getElem?_toArray, List.getElem?_eq_getElem h]
  rfl

/-- What the walk adds is a subsequence of both texts up to where it began. -/
theorem exists_walkBack_eq (rows : Array (Array Nat)) {i j : Nat} (common : List String)
    (hi : i ≤ a.length) (hj : j ≤ b.length) :
    ∃ found, walkBack a.toArray b.toArray rows i j common = found ++ common ∧
      found.Sublist (a.take i) ∧ found.Sublist (b.take j) := by
  induction hm : i + j using Nat.strongRecOn generalizing i j common with
  | ind m ih =>
    match i, j with
    | 0, j => exact ⟨[], by rw [walkBack]; rfl, by simp, by simp⟩
    | i + 1, 0 => exact ⟨[], by simp [walkBack], by simp, by simp⟩
    | i + 1, j + 1 =>
      rw [walkBack]
      by_cases hline : a.toArray.getD i "" = b.toArray.getD j ""
      · obtain ⟨found, heq, ha, hb⟩ := ih (i + j) (by omega)
          (a.toArray.getD i "" :: common) (by omega) (by omega) rfl
        refine ⟨found ++ [a.toArray.getD i ""], ?_, ?_, ?_⟩
        · rw [if_pos hline, heq, List.append_assoc, List.singleton_append]
        · rw [take_succ_getD hi]
          exact ha.append (.refl _)
        · rw [take_succ_getD hj, ← hline]
          exact hb.append (.refl _)
      · have hup : (a.take i).Sublist (a.take (i + 1)) := by
          rw [take_succ_getD hi]
          exact List.sublist_append_left _ _
        have hback : (b.take j).Sublist (b.take (j + 1)) := by
          rw [take_succ_getD hj]
          exact List.sublist_append_left _ _
        -- Which way the walk goes is for the table to say, and does not matter here.
        generalize hleft : (if j = 0 then _ else _ : Nat) = left
        rw [if_neg hline]
        dsimp only
        split_ifs
        · exact ⟨[], rfl, by simp, by simp⟩
        · obtain ⟨found, heq, ha, hb⟩ := ih (i + 1 + j) (by omega) common hi (by omega) rfl
          exact ⟨found, heq, ha, hb.trans hback⟩
        · obtain ⟨found, heq, ha, hb⟩ := ih (i + (j + 1)) (by omega) common (by omega) hj rfl
          exact ⟨found, heq, ha.trans hup, hb⟩

theorem commonLines_sublist (a b : List String) :
    (commonLines a b).Sublist a ∧ (commonLines a b).Sublist b := by
  obtain ⟨found, heq, ha, hb⟩ := exists_walkBack_eq (table a b) [] (le_refl a.length)
    (le_refl b.length)
  rw [commonLines, heq, List.append_nil]
  rw [List.take_length] at ha hb
  exact ⟨ha, hb⟩

/-! ## One turn -/

/-- The lines that are taken first are the head of all three lists, and there is no
further line that all three begin with. -/
theorem takeSame_spec (a b common : List String) :
    ∃ same a' b' common', takeSame a b common = (same, a', b', common') ∧
      a = same ++ a' ∧ b = same ++ b' ∧ common = same ++ common' ∧
      ∀ line, ¬(a'.head? = some line ∧ b'.head? = some line ∧ common'.head? = some line) := by
  induction a, b, common using takeSame.induct with
  | case1 x a y b z common h same rest heq ih =>
    obtain ⟨same, a', b', common', hrun, ha, hb, hcommon, hstop⟩ := ih
    obtain ⟨rfl, rfl⟩ := h
    refine ⟨y :: same, a', b', common', ?_, by simp [← ha], by simp [← hb], by simp [← hcommon],
      hstop⟩
    rw [takeSame, if_pos ⟨rfl, rfl⟩, hrun]
  | case2 x a y b z common h =>
    refine ⟨[], x :: a, y :: b, z :: common, by rw [takeSame, if_neg h], rfl, rfl, rfl, ?_⟩
    rintro line ⟨ha, hb, hcommon⟩
    cases ha
    cases hb
    cases hcommon
    exact h ⟨rfl, rfl⟩
  | case3 a b common h =>
    refine ⟨[], a, b, common, ?_, rfl, rfl, rfl, ?_⟩
    · rw [takeSame]
      exact h
    · rintro line ⟨ha, hb, hcommon⟩
      cases a with
      | nil => cases ha
      | cons x a =>
        cases b with
        | nil => cases hb
        | cons y b =>
          cases common with
          | nil => cases hcommon
          | cons z common => exact h x a y b z common rfl rfl rfl

/-- The lines that are taken on their own stand before the next common line, which is
still there behind them. -/
theorem takeOwn_spec {lines common : List String} (h : common.Sublist lines) :
    ∃ own rest, takeOwn lines common = (own, rest) ∧ lines = own ++ rest ∧
      common.Sublist rest ∧ rest.head? = common.head? := by
  rw [takeOwn, List.span_eq_takeWhile_dropWhile]
  refine ⟨_, _, rfl, (List.takeWhile_append_dropWhile).symm, ?_⟩
  induction lines with
  | nil => simp [List.sublist_nil.1 h]
  | cons line lines ih =>
    by_cases hline : some line = common.head?
    · rw [List.dropWhile_cons_of_neg (by simp [hline])]
      exact ⟨h, hline⟩
    · rw [List.dropWhile_cons_of_pos (by simpa using hline)]
      exact ih ((List.sublist_cons_iff.1 h).resolve_right fun ⟨rest, heq, _⟩ => hline (by rw [heq]; rfl))

/-! ## All turns -/

/-- The lines of all runs but those with one kind of change. -/
def linesWithout (change : Change) (runs : List Run) : List String :=
  (runs.filter (·.change ≠ change)).flatMap (·.lines)

theorem linesWithout_append (change : Change) (runs more : List Run) :
    linesWithout change (runs ++ more) = linesWithout change runs ++ linesWithout change more := by
  simp [linesWithout]

/-- Runs without lines need not be told. -/
theorem linesWithout_filter (change : Change) (runs : List Run) :
    linesWithout change (runs.filter (·.lines ≠ [])) = linesWithout change runs := by
  induction runs with
  | nil => rfl
  | cons run runs ih =>
    have hcons (rest : List Run) : linesWithout change (run :: rest) =
        linesWithout change [run] ++ linesWithout change rest :=
      linesWithout_append change [run] rest
    by_cases hrun : run.lines = []
    · have hnone : linesWithout change [run] = [] := by
        rw [linesWithout, List.flatMap_eq_nil_iff]
        intro other hother
        rw [List.mem_singleton.1 (List.mem_filter.1 hother).1, hrun]
      rw [List.filter_cons_of_neg (by simpa using hrun), hcons, hnone, ih, List.nil_append]
    · rw [List.filter_cons_of_pos (by simpa using hrun), hcons, hcons runs, ih]

/-- Along a common subsequence the runs tell both texts in full. -/
theorem linesWithout_runs {turns : Nat} (ha : common.Sublist a) (hb : common.Sublist b)
    (hturns : a.length + b.length ≤ turns) :
    linesWithout .added (runs turns a b common) = a ∧
      linesWithout .removed (runs turns a b common) = b := by
  induction turns generalizing a b common with
  | zero =>
    obtain ⟨rfl, rfl⟩ : a = [] ∧ b = [] := by
      constructor <;> refine List.eq_nil_of_length_eq_zero ?_ <;> omega
    exact ⟨rfl, rfl⟩
  | succ turns ih =>
    rw [runs]
    split_ifs with hdone
    · obtain ⟨rfl, rfl⟩ := hdone
      exact ⟨rfl, rfl⟩
    · obtain ⟨same, a₁, b₁, common₁, hsame, rfl, rfl, rfl, hstop⟩ := takeSame_spec a b common
      have ha₁ : common₁.Sublist a₁ := (List.append_sublist_append_left same).1 ha
      have hb₁ : common₁.Sublist b₁ := (List.append_sublist_append_left same).1 hb
      obtain ⟨removed, a₂, hremoved, rfl, ha₂, hhead⟩ := takeOwn_spec ha₁
      obtain ⟨added, b₂, hadded, rfl, hb₂, hhead'⟩ := takeOwn_spec hb₁
      have hprogress : same ≠ [] ∨ removed ≠ [] ∨ added ≠ [] := by
        by_contra hnone
        simp only [not_or, not_not] at hnone
        obtain ⟨rfl, rfl, rfl⟩ := hnone
        cases common₁ with
        | nil => simp_all
        | cons line common₁ => exact hstop line ⟨hhead, hhead', rfl⟩
      have hrest : a₂.length + b₂.length ≤ turns := by
        simp only [← List.length_pos_iff] at hprogress
        simp only [List.length_append] at hturns
        omega
      obtain ⟨iha, ihb⟩ := ih ha₂ hb₂ hrest
      rw [hsame]
      simp only [hremoved, hadded, linesWithout_append, linesWithout_filter, iha, ihb]
      constructor <;> simp [linesWithout]

theorem linesWithout_diff (expected actual : String) :
    linesWithout .added (diff expected actual) =
        (splitLines expected.toList).map String.ofList ∧
      linesWithout .removed (diff expected actual) =
        (splitLines actual.toList).map String.ofList := by
  obtain ⟨ha, hb⟩ := commonLines_sublist ((splitLines expected.toList).map String.ofList)
    ((splitLines actual.toList).map String.ofList)
  exact linesWithout_runs ha hb le_rfl

end CTree.Report
