import CTree.CommandLine.Run
import CTree.Proofs.DocumentLines
import CTree.Proofs.FixtureComparison
import CTree.Proofs.LineRuns

/-!
# What is shown of a fixture that failed

Under the tagged line of a fixture that failed stand the lines of both documents, each
with a mark in its seventh column. Without the added lines they are the expected
document, without the removed ones the actual document, and since the documents are
those of different trees, there is a line of one of these kinds.
-/
namespace CTree.Report

/-! ## Reading a difference -/

/-- A line with its mark in the seventh column. -/
def markedLine (line : Char × List Char) : List Char := List.replicate 6 ' ' ++ line.1 :: line.2

def readMark : List Char → Option (Char × List Char)
  | ' ' :: ' ' :: ' ' :: ' ' :: ' ' :: ' ' :: mark :: line => some (mark, line)
  | _ => none

def markedLines (text : List Char) : List (Char × List Char) := (splitLines text).filterMap readMark

/-- The text consists of marked lines. Those with the mark of a common or removed line are the
lines of the first document, those with the mark of a common or added line are the
lines of the second one, and not all lines are common. -/
structure ShowsBoth (text : List Char) (expected actual : String) : Prop where
  lines : text = (markedLines text).flatMap fun line => markedLine line ++ ['\n']
  marks : ∀ line ∈ markedLines text, line.1 = ' ' ∨ line.1 = '-' ∨ line.1 = '+'
  expected : ((markedLines text).filter fun line => line.1 = ' ' ∨ line.1 = '-').map (·.2) =
    splitLines expected.toList
  actual : ((markedLines text).filter fun line => line.1 = ' ' ∨ line.1 = '+').map (·.2) =
    splitLines actual.toList
  differ : ∃ line ∈ markedLines text, line.1 = '-' ∨ line.1 = '+'

/-- Marked lines are read as they were written. -/
theorem markedLines_flatMap {lines : List (Char × List Char)}
    (h : ∀ line ∈ lines, line.1 ≠ '\n' ∧ '\n' ∉ line.2) :
    markedLines (lines.flatMap fun line => markedLine line ++ ['\n']) = lines := by
  have hline : ∀ line ∈ lines.map markedLine, '\n' ∉ line := by
    refine List.forall_mem_map.2 fun line hline => ?_
    obtain ⟨hmark, htext⟩ := h line hline
    simp [markedLine, Ne.symm hmark, htext]
  have hsplit := splitLines_flatMap hline []
  rw [List.flatMap_map, List.append_nil] at hsplit
  rw [markedLines, hsplit, List.filterMap_append, List.filterMap_map]
  refine (List.append_nil _).trans ((List.filterMap_congr fun line _ => ?_).trans List.filterMap_some)
  rfl

/-! ## Marked lines of runs -/

def Change.sign : Change → Char
  | same => ' '
  | removed => '-'
  | added => '+'

lemma sign_mem (change : Change) :
    change.sign = ' ' ∨ change.sign = '-' ∨ change.sign = '+' := by
  cases change <;> simp [Change.sign]

theorem toList_mark (change : Change) :
    (mark change).toList = List.replicate 6 ' ' ++ [change.sign] := by
  cases change <;> decide

/-- The lines of a run with their mark. -/
def Run.told (run : Run) : List (Char × List Char) :=
  run.lines.map fun line => (run.change.sign, line.toList)

theorem filter_told_run (keeps : Char → Bool) (run : Run) :
    (run.told.filter fun line => keeps line.1).map (·.2) =
      if keeps run.change.sign then run.lines.map String.toList else [] := by
  have hmark : ∀ line ∈ run.told, line.1 = run.change.sign :=
    List.forall_mem_map.2 fun line _ => rfl
  split_ifs with hkeeps
  · rw [List.filter_eq_self.2 fun line hline => by rw [hmark line hline, hkeeps], Run.told,
      List.map_map]
    rfl
  · rw [List.filter_eq_nil_iff.2 fun line hline => by rwa [hmark line hline], List.map_nil]

/-- The lines with other marks than that of one kind of change are the lines of the other runs. -/
theorem filter_told (keeps : Char → Bool) (change : Change)
    (h : ∀ other : Change, keeps other.sign = true ↔ other ≠ change) (runs : List Run) :
    ((runs.flatMap Run.told).filter fun line => keeps line.1).map (·.2) =
      (linesWithout change runs).map String.toList := by
  induction runs with
  | nil => rfl
  | cons run runs ih =>
    have hcons : linesWithout change (run :: runs) =
        (if run.change ≠ change then run.lines else []) ++ linesWithout change runs := by
      by_cases hchange : run.change = change <;> simp [linesWithout, hchange]
    rw [List.flatMap_cons, List.filter_append, List.map_append, filter_told_run, ih, hcons,
      List.map_append]
    simp only [h]
    split_ifs <;> rfl

/-- A line that is shown as it is. -/
def IsShown (line : String) : Prop := line.toList ≠ [] ∧ '\n' ∉ line.toList ∧ '\r' ∉ line.toList

/-- Runs of such lines are printed with a marked line for each of theirs. -/
theorem toList_writeRun_of_isShown {run : Run} (h : ∀ line ∈ run.lines, IsShown line) :
    (writeRun false run).toList = run.told.flatMap fun line => markedLine line ++ ['\n'] := by
  have hshown : shownLines run.text = run.lines.map String.toList :=
    shownLines_intercalate (List.forall_mem_map.2 h)
  have hstyle : (styleOfRun false run.change).toList = [] := by cases run.change <;> rfl
  rw [toList_writeRun, hshown, hstyle, List.nil_append, Run.told, List.flatMap_map,
    List.flatMap_map, toList_mark]
  simp [markedLine]

/-! ## The difference of two documents -/

variable {expected actual : String}

/-- The runs of two documents hold no other lines than theirs. -/
theorem isShown_of_mem_diff (hexpected : Json.FullLines expected.toList)
    (hactual : Json.FullLines actual.toList) :
    ∀ run ∈ diff expected actual, ∀ line ∈ run.lines, IsShown line := by
  have hline {text : String} (h : Json.FullLines text.toList) :
      ∀ line ∈ (splitLines text.toList).map String.ofList, IsShown line := by
    refine List.forall_mem_map.2 fun line hline => ?_
    obtain ⟨hne, hin⟩ := h line hline
    rw [IsShown, String.toList_ofList]
    exact ⟨hne, hin.not_mem (by decide), hin.not_mem (by decide)⟩
  obtain ⟨hfirst, hsecond⟩ := linesWithout_diff expected actual
  intro run hrun line hmem
  have hwithout {change : Change} (hne : run.change ≠ change) :
      line ∈ linesWithout change (diff expected actual) :=
    List.mem_flatMap.2 ⟨run, List.mem_filter.2 ⟨hrun, by simpa using hne⟩, hmem⟩
  by_cases hadded : run.change = .added
  · exact hline hactual line (hsecond ▸ hwithout (by simp [hadded]))
  · exact hline hexpected line (hfirst ▸ hwithout hadded)

/-- The marked lines of the difference of two texts. -/
def told (expected actual : String) : List (Char × List Char) :=
  (diff expected actual).flatMap Run.told

theorem told_spec (hexpected : Json.FullLines expected.toList)
    (hactual : Json.FullLines actual.toList) :
    ∀ line ∈ told expected actual,
      (line.1 = ' ' ∨ line.1 = '-' ∨ line.1 = '+') ∧ '\n' ∉ line.2 := by
  intro line hline
  obtain ⟨run, hrun, hline⟩ := List.mem_flatMap.1 hline
  obtain ⟨text, htext, rfl⟩ := List.mem_map.1 hline
  exact ⟨sign_mem run.change, (isShown_of_mem_diff hexpected hactual run hrun text htext).2.1⟩

theorem toList_writeDetails_eq_told (hexpected : Json.FullLines expected.toList)
    (hactual : Json.FullLines actual.toList) :
    (writeDetails false (.failed expected actual)).toList =
      (told expected actual).flatMap fun line => markedLine line ++ ['\n'] := by
  have hshown := isShown_of_mem_diff hexpected hactual
  rw [toList_writeDetails_failed, told, List.flatMap_assoc,
    List.flatMap_congr fun run hrun => toList_writeRun_of_isShown (hshown run hrun)]
  exact List.append_nil _

/-- Without its added lines the difference is the first text, without its removed lines the second
one. -/
theorem filter_told_diff (expected actual : String) :
    ((told expected actual).filter fun line => line.1 = ' ' ∨ line.1 = '-').map (·.2) =
        splitLines expected.toList ∧
      ((told expected actual).filter fun line => line.1 = ' ' ∨ line.1 = '+').map (·.2) =
        splitLines actual.toList := by
  have hlines (lines : List (List Char)) :
      (lines.map String.ofList).map String.toList = lines := by simp
  obtain ⟨hfirst, hsecond⟩ := linesWithout_diff expected actual
  rw [← hlines (splitLines expected.toList), ← hfirst, ← hlines (splitLines actual.toList),
    ← hsecond]
  exact ⟨filter_told (fun c => c = ' ' ∨ c = '-') .added (by rintro (_ | _ | _) <;> decide) _,
    filter_told (fun c => c = ' ' ∨ c = '+') .removed (by rintro (_ | _ | _) <;> decide) _⟩

/-- Two documents that differ are both shown. -/
theorem showsBoth_of_ne (hexpected : Json.FullLines expected.toList)
    (hactual : Json.FullLines actual.toList) (hne : expected ≠ actual) :
    ShowsBoth (writeDetails false (.failed expected actual)).toList expected actual := by
  have htold := told_spec hexpected hactual
  have htext := toList_writeDetails_eq_told hexpected hactual
  obtain ⟨hfirst, hsecond⟩ := filter_told_diff expected actual
  have hread : markedLines (writeDetails false (.failed expected actual)).toList =
      told expected actual := by
    rw [htext]
    refine markedLines_flatMap fun line hline => ⟨?_, (htold line hline).2⟩
    rcases (htold line hline).1 with h | h | h <;> simp [h]
  refine ⟨by rw [hread, htext], hread ▸ fun line hline => (htold line hline).1,
    hread ▸ hfirst, hread ▸ hsecond, ?_⟩
  rw [hread]
  -- If all lines were common, the documents would have the same lines.
  by_contra hnone
  simp only [not_exists, not_and, not_or] at hnone
  have hcommon : ∀ line ∈ told expected actual, line.1 = ' ' := fun line hline =>
    (htold line hline).1.resolve_right fun h =>
      h.elim (hnone line hline).1 (hnone line hline).2
  rw [List.filter_eq_self.2 fun line hline => by simp [hcommon line hline]] at hfirst hsecond
  exact hne (String.toList_injective (splitLines_injective (hfirst.symm.trans hsecond)))

end CTree.Report

namespace CTree.Fixture
open CTree.Store (Path)
open CTree.Tree (maxDepth)

variable {fixture : Fixture} {store after : Store} {expected actual : String} {blessing : Bool}

/-! ## Fixtures that failed -/

/-- The documents of a fixture that fails are the pretty ones of two trees, and are read as
these trees. -/
theorem exists_trees_of_check (h : fixture.check store = .failed expected actual) :
    ∃ old tree : Tree, old ≠ tree ∧
      expected = old.toJson.render .pretty ∧ Source.decode expected = .ok old ∧
      actual = tree.toJson.render .pretty ∧ Source.decode actual = .ok tree := by
  cases htree : store.readTree fixture.input with
  | error e => cases (check_of_readTree_error htree).symm.trans h
  | ok tree =>
    cases hold : fixture.readExpected store with
    | error e => cases (check_of_readExpected_error htree hold).symm.trans h
    | ok old =>
      obtain ⟨text, hdecode⟩ := exists_decode_of_readExpected hold
      obtain ⟨-, hwell, holddepth⟩ := Source.decode_eq_ok_iff.1 hdecode
      have hdepth : tree.depth ≤ maxDepth := by
        by_contra hdeep
        cases (check_of_deep htree hold (Nat.lt_of_not_le hdeep) holddepth).symm.trans h
      obtain ⟨source, hsource⟩ : ∃ source, Source.toTree source = .ok tree := by
        rw [Store.readTree] at htree
        cases hread : store.readSource fixture.input with
        | error e => rw [hread] at htree; cases htree
        | ok source => exact ⟨source, by rw [hread] at htree; exact htree⟩
      rw [check_of_trees htree hold hdepth holddepth] at h
      split_ifs at h with heq
      cases h
      exact ⟨old, tree, heq, rfl, Source.decode_render hwell holddepth .pretty, rfl,
        Source.decode_encode hsource (Source.encode_eq_ok_iff.2 ⟨hdepth, rfl⟩)⟩

/-- A fixture fails in a run where its check fails and nothing was written for it. -/
theorem check_of_process (h : (fixture.process blessing store).1 = .failed expected actual) :
    fixture.check store = .failed expected actual := by
  rw [process] at h
  split_ifs at h
  · split at h <;> cases h
  · exact h

/-- Every outcome of a run is that of its fixture in some store on the way. -/
theorem exists_process_of_mem {fixtures : List Fixture} {result : Fixture × Outcome}
    (h : result ∈ (processAll blessing fixtures store).1) :
    ∃ on : Store, result.2 = (result.1.process blessing on).1 := by
  induction fixtures generalizing store with
  | nil => cases h
  | cons fixture fixtures ih =>
    rcases List.mem_cons.1 h with rfl | h
    · exact ⟨store, rfl⟩
    · exact ih h

theorem answer_of_run {environment : CommandLine.Environment} {bless : Bool} {root : Path}
    {summary : Summary}
    (h : run store root (bless || environment.blesses) = .ok (summary, after)) :
    CommandLine.run environment store (.test root bless) =
      ⟨if summary.hasFailures then 1 else 0, Report.write environment.coloured summary, none,
        after⟩ := by
  rw [CommandLine.run, CommandLine.test, h]

/-- Between the tagged line of a fixture that failed and what is told of the next one, the
command prints the difference of the two documents, in which both can be read in full.
With colours it is the same text with style sequences put in. -/
theorem failure_shown (environment : CommandLine.Environment) (bless : Bool) {root : Path}
    {summary : Summary}
    (hrun : run store root (bless || environment.blesses) = .ok (summary, after))
    (hmem : (fixture, .failed expected actual) ∈ summary.results) :
    (∃ front back, summary.results = front ++ (fixture, .failed expected actual) :: back ∧
      (CommandLine.run environment store (.test root bless)).output.toList =
        (front.flatMap fun r => (Report.writeResult environment.coloured r.1 r.2).toList) ++
        (Report.writeHeading environment.coloured fixture (.failed expected actual)).toList ++
        (Report.writeDetails environment.coloured (.failed expected actual)).toList ++
        (back.flatMap fun r => (Report.writeResult environment.coloured r.1 r.2).toList) ++
        '\n' :: (Report.writeCounts environment.coloured summary).toList) ∧
    Report.Styled
      (Report.writeDetails environment.coloured (.failed expected actual)).toList
      (Report.writeDetails false (.failed expected actual)).toList ∧
    Report.ShowsBoth (Report.writeDetails false (.failed expected actual)).toList
      expected actual := by
  refine ⟨?_, Report.styled_writeDetails _ _, ?_⟩
  · obtain ⟨front, back, hresults⟩ := List.append_of_mem hmem
    refine ⟨front, back, hresults, ?_⟩
    rw [answer_of_run hrun, Report.toList_write, hresults]
    simp only [Report.writeResult, List.flatMap_append, List.flatMap_cons, String.toList_append,
      List.append_assoc]
  · obtain ⟨fixtures, -, hresults⟩ := exists_fixtures_of_run hrun
    obtain ⟨on, hprocess⟩ := exists_process_of_mem (hresults ▸ hmem)
    obtain ⟨old, tree, hne, rfl, hold, rfl, htree⟩ :=
      exists_trees_of_check (check_of_process hprocess.symm)
    refine Report.showsBoth_of_ne old.fullLines_render tree.fullLines_render fun heq => ?_
    rw [heq, htree] at hold
    cases hold
    exact hne rfl

theorem failure_shown_outdated :
    ∃ summary after actual,
      run outdated ⟨"/"⟩ false = .ok (summary, after) ∧
      (ofInput ⟨"/a.in"⟩, .failed "\"x\"" actual) ∈ summary.results ∧
      Report.ShowsBoth (Report.writeDetails false (.failed "\"x\"" actual)).toList
        "\"x\"" actual := by
  have hfound : discover outdated ⟨"/"⟩ = .ok [ofInput ⟨"/a.in"⟩] :=
    Source.eq_ok_of_toOption (by decide +kernel)
  have hdecode : Source.decode "\"x\"" = .ok (.leaf "x") :=
    Source.eq_ok_of_toOption (by decide +kernel)
  have hshape : (Source.toTree ";").toOption.map Tree.depth = some 3 := by decide +kernel
  obtain ⟨tree, hsource, hdepth⟩ := Parse.exists_ok_of_map hshape
  have hinput : outdated.content (ofInput ⟨"/a.in"⟩).input = .ok (.file ";".toUTF8) := rfl
  have hexpected : outdated.content (ofInput ⟨"/a.in"⟩).expected =
      .ok (.file "\"x\"".toUTF8) := rfl
  have htree : outdated.readTree (ofInput ⟨"/a.in"⟩).input = .ok tree := by
    rw [readTree_of_content hinput, hsource]
  have hold : (ofInput ⟨"/a.in"⟩).readExpected outdated = .ok (.leaf "x") := by
    rw [readExpected_of_content hexpected, hdecode]
    rfl
  have hcheck := check_of_trees htree hold (by rw [hdepth]; decide) (by decide)
  have hleaf : (Tree.leaf "x").toJson.render .pretty = "\"x\"" := by decide +kernel
  rw [if_neg (by rintro rfl; cases hdepth), hleaf] at hcheck
  have hrun := run_of_discover false hfound
  have hresults (fixture : Fixture) :
      (processAll false [fixture] outdated).1 = [(fixture, fixture.check outdated)] := rfl
  have hmem : (ofInput ⟨"/a.in"⟩, Outcome.failed "\"x\"" (tree.toJson.render .pretty)) ∈
      (processAll false [ofInput ⟨"/a.in"⟩] outdated).1 := by
    rw [hresults, hcheck]
    exact List.mem_singleton_self _
  obtain ⟨-, -, hboth⟩ := failure_shown ⟨none, none, none⟩ false hrun hmem
  exact ⟨_, _, _, hrun, hmem, hboth⟩

end CTree.Fixture
