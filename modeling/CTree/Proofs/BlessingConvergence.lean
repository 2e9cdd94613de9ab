import CTree.Proofs.DocumentRoundTrip
import CTree.Proofs.FixtureRun
import CTree.Proofs.TreeWalk

/-!
# Blessing converges

The document that is written for an input is read back as the tree of the input, so
a fixture that was blessed passes. One that was not blessed finds what it found
before. Hence a run that blesses leaves nothing to bless: the next run reports no
difference, and writes nothing even if it may.
-/
namespace CTree.Source

/-- The document of a source is read back as the tree of the source. -/
theorem decode_encode {source document : String} {tree : Tree} {layout : Json.Layout}
    (htree : toTree source = .ok tree) (h : encode layout tree = .ok document) :
    decode document = .ok tree := by
  obtain ⟨hdepth, rfl⟩ := encode_eq_ok_iff.1 h
  refine decode_render ?_ hdepth layout
  rw [toTree] at htree
  cases hparse : parse source with
  | error e => rw [hparse] at htree; cases htree
  | ok node =>
    rw [hparse] at htree
    cases htree
    change node.toRose.toTree.wellFormed = true
    rw [Rose.toTree_eq_sorted]
    exact Rose.wellFormed_sorted _

end CTree.Source

namespace CTree.Fixture
open CTree.Store

variable {fixture : Fixture} {s t store : Store} {location : Location}

theorem fromUTF8?_toUTF8 (text : String) : String.fromUTF8? text.toUTF8 = some text := by
  rw [String.fromUTF8?, String.toUTF8_eq_toByteArray, dif_pos text.isValidUTF8]
  rfl

theorem readSource_of_content {path : Path} {text : String}
    (h : store.content path = .ok (.file text.toUTF8)) : store.readSource path = .ok text := by
  simp only [readSource, readText, readBytes, h, bind, Except.bind, fromUTF8?_toUTF8]
  rfl

/-- What is written for the input passes. -/
theorem check_of_document {text : String}
    (hread : store.readDocument .pretty fixture.input = .ok text)
    (hfile : store.content fixture.expected = .ok (.file text.toUTF8)) :
    fixture.check store = .passed := by
  obtain ⟨tree, htree, hencode⟩ : ∃ tree, store.readTree fixture.input = .ok tree ∧
      Source.encode .pretty tree = .ok text := by
    rw [readDocument] at hread
    cases htree : store.readTree fixture.input with
    | error e => rw [htree] at hread; cases hread
    | ok tree => exact ⟨tree, rfl, by rw [htree] at hread; exact hread⟩
  obtain ⟨source, hsource⟩ : ∃ source, Source.toTree source = .ok tree := by
    rw [readTree] at htree
    cases hsource : store.readSource fixture.input with
    | error e => rw [hsource] at htree; cases htree
    | ok source => exact ⟨source, by rw [hsource] at htree; exact htree⟩
  have hexpected : fixture.readExpected store = .ok tree := by
    have hhas : fixture.hasExpected store = true := isFile_iff.2 ⟨_, hfile⟩
    rw [readExpected, if_pos hhas, readSource_of_content hfile]
    simp only [bind, Except.bind, Source.decode_encode hsource hencode]
    rfl
  rw [check, compare, htree, hexpected]
  simp only [bind, Except.bind, if_true]
  rfl

/-- A fixture that fails has a document, and a tree that can be written. -/
theorem of_check_eq_failed {expected actual : String}
    (h : fixture.check store = .failed expected actual) :
    fixture.hasExpected store = true ∧
      store.readDocument .pretty fixture.input = .ok actual := by
  have hcompare : fixture.compare store = .ok (some (expected, actual)) := by
    rw [check] at h
    split at h <;> cases h
    assumption
  rw [compare] at hcompare
  rw [readDocument]
  cases hread : store.readTree fixture.input with
  | error e => rw [hread] at hcompare; cases hcompare
  | ok tree =>
    cases hexpected : fixture.readExpected store with
    | error e => rw [hread, hexpected] at hcompare; cases hcompare
    | ok old =>
      simp only [hread, hexpected, bind, Except.bind] at hcompare ⊢
      refine ⟨?_, ?_⟩
      · by_contra hno
        rw [readExpected, if_neg hno] at hexpected
        cases hexpected
      · split_ifs at hcompare <;> [cases hcompare; skip]
        cases hold : Source.encode .pretty old with
        | error e => rw [hold] at hcompare; cases hcompare
        | ok _ =>
          rw [hold] at hcompare
          cases hnew : Source.encode .pretty tree with
          | error e => rw [hnew] at hcompare; cases hcompare
          | ok _ =>
            rw [hnew] at hcompare
            cases hcompare
            rfl

/-- So it is blessed if that is asked for: there is a place for the new document. -/
theorem process_of_failed {expected actual : String}
    (h : fixture.check store = .failed expected actual) :
    (fixture.process true store).1 = .blessed := by
  obtain ⟨hhas, hread⟩ := of_check_eq_failed h
  obtain ⟨bytes, hfile⟩ := isFile_iff.1 hhas
  obtain ⟨location, hnames, hget⟩ := names_of_file hfile
  have hwrites : (fixture.blessFile store).1 = .ok () :=
    (convertFile_succeeds_iff .pretty fixture.input fixture.expected).2
      ⟨⟨actual, hread⟩, location, hnames, by simp [hget]⟩
  rw [process, h, Bool.true_and, isBlessed, if_pos rfl]
  rcases hrun : fixture.blessFile store with ⟨result, after⟩
  obtain rfl : result = .ok () := by simpa [hrun] using hwrites
  rfl

/-- A fixture that is not blessed comes to the same without blessing. -/
theorem process_of_not_blessed (h : (fixture.process true store).1 ≠ .blessed) :
    ((fixture.process true store).1 = .passed ∧ fixture.check store = .passed) ∨
      (∃ e, (fixture.process true store).1 = .errored e) ∧
        ∃ e, fixture.check store = .errored e := by
  cases hcheck : fixture.check store with
  | passed => exact .inl ⟨by simp [process, hcheck, isBlessed], rfl⟩
  | failed expected actual => exact absurd (process_of_failed hcheck) h
  | blessed => exact absurd hcheck (check_ne_blessed fixture store)
  | errored e =>
    refine .inr ⟨?_, e, rfl⟩
    rw [process, hcheck] at h ⊢
    split_ifs at h ⊢
    · rcases hrun : fixture.blessFile store with ⟨_ | _, after⟩
      · exact ⟨_, rfl⟩
      · rw [hrun] at h
        exact absurd rfl h
    · exact ⟨e, rfl⟩

/-- Behind a run that may bless, a fixture of the run passes or is as it was. -/
theorem Leaves.check_or_alike {fixtures : List Fixture} (hapart : Apart fixtures s)
    (hleaves : Leaves true fixtures s t) (hmem : fixture ∈ fixtures) :
    ((fixture.process true s).1 = .blessed ∧ fixture.check t = .passed) ∨
      ((fixture.process true s).1 ≠ .blessed ∧ fixture.Alike s t) := by
  obtain ⟨location, hat⟩ := hapart.isAt fixture hmem
  have hinput : t.get? location = s.get? location := by
    rcases hleaves.only location with heq | ⟨other, hmem', -, hnames⟩
    · exact heq
    · obtain ⟨place, hplace⟩ := hapart.isAt other hmem'
      exact absurd hat.extension ((hplace.beside hnames).extension?_ne hat.names)
  by_cases hblessed : (fixture.process true s).1 = .blessed
  · obtain ⟨document, text, hnames, hread, hfile⟩ := hleaves.blessed fixture hmem hblessed
    have hcontent : s.content fixture.input = t.content fixture.input := by
      rw [hat.names.content_eq, (hat.names.of_sameFolders hleaves.folders).content_eq, hinput]
    have hread' : t.readDocument .pretty fixture.input = .ok text := by
      rw [← hread]
      simp only [readDocument, readTree, readSource, readText, readBytes, hcontent]
    have hnames' := hnames.of_sameFolders hleaves.folders
    exact .inl ⟨hblessed, check_of_document hread' (hnames'.content_eq_ok_iff.2 hfile)⟩
  · refine .inr ⟨hblessed, .of_get? hat hleaves.folders hinput fun document hnames => ?_⟩
    exact hleaves.get?_expected hapart hmem hblessed hnames

/-- A run that blesses and a second run find the same fixtures. The second one passes
those that the first one has passed or blessed, has errors where the first one has
them, and none of them fails in either run. A second run changes nothing, even if it
may bless.

A store holds regular files and folders only, so what a run has written is read in the next
one: there are no links, no permissions and no listings that break off. -/
theorem bless_converges {root : Path} {content : Content}
    (hroot : store.content root = .ok content) :
    ∃ (fixtures : List Fixture) (first second : Fixture → Outcome) (after : Store),
      discover store root = .ok fixtures ∧
      run store root true = .ok (⟨fixtures.map fun fixture => (fixture, first fixture)⟩, after) ∧
      discover after root = .ok fixtures ∧
      run after root false = .ok (⟨fixtures.map fun fixture => (fixture, second fixture)⟩, after) ∧
      (∀ fixture ∈ fixtures,
        (second fixture = .passed ↔ first fixture = .passed ∨ first fixture = .blessed) ∧
        ((∃ e, second fixture = .errored e) ↔ ∃ e, first fixture = .errored e) ∧
        ∀ expected actual, first fixture ≠ .failed expected actual ∧
          second fixture ≠ .failed expected actual) ∧
      ∃ summary, run after root true = .ok (summary, after) := by
  obtain ⟨fixtures, hfound, hat, hpairwise⟩ := discover_spec hroot
  have hapart : Apart fixtures store := ⟨hat, hpairwise⟩
  obtain ⟨hresults, hleaves⟩ := processAll_spec true hapart
  set after := (processAll true fixtures store).2
  have hfound' := hleaves.found root fixtures hfound
  obtain ⟨content', hroot'⟩ := exists_content_of_discover hfound'
  have hapart' : Apart fixtures after := by
    obtain ⟨_, heq, hat', hpairwise'⟩ := discover_spec hroot'
    cases hfound'.symm.trans heq
    exact ⟨hat', hpairwise'⟩
  have hsecond : (processAll false fixtures after).2 = after :=
    processAll_eq_self fun fixture _ => check_ne_blessed fixture after
  have hthird : (processAll true fixtures after).2 = after := by
    refine processAll_eq_self fun fixture hmem => ?_
    rcases hleaves.check_or_alike hapart hmem with ⟨-, hpassed⟩ | ⟨hne, halike⟩
    · exact Spared.process_ne_blessed (.inl hpassed) true
    · rw [← halike.process_fst_eq]
      exact hne
  refine ⟨fixtures, fun fixture => (fixture.process true store).1,
    fun fixture => (fixture.process false after).1, after, hfound, ?_, hfound', ?_, ?_, ?_⟩
  · rw [run_of_discover true hfound, hresults]
  · rw [run_of_discover false hfound', (processAll_spec false hapart').1, hsecond]
  · intro fixture hmem
    have hunblessed : (fixture.process false after).1 = fixture.check after := rfl
    simp only [hunblessed]
    rcases hleaves.check_or_alike hapart hmem with ⟨hblessed, hpassed⟩ | ⟨hne, halike⟩
    · simp [hblessed, hpassed]
    · rw [← halike.check_eq]
      rcases process_of_not_blessed hne with ⟨hfirst, hcheck⟩ | ⟨⟨e, hfirst⟩, e', hcheck⟩
      · simp [hfirst, hcheck]
      · simp [hfirst, hcheck]
  · exact ⟨_, by rw [run_of_discover true hfound', hthird]⟩

/-- Two fixtures are blessed and pass then, one passes both times, and two have errors both
times. -/
theorem bless_converges_mixed :
    ∃ (fixtures : List Fixture) (first second : Fixture → Outcome) (after : Store),
      discover mixed ⟨"/"⟩ = .ok fixtures ∧
      run mixed ⟨"/"⟩ true = .ok (⟨fixtures.map fun fixture => (fixture, first fixture)⟩, after) ∧
      discover after ⟨"/"⟩ = .ok fixtures ∧
      run after ⟨"/"⟩ false =
        .ok (⟨fixtures.map fun fixture => (fixture, second fixture)⟩, after) ∧
      fixtures.map (fun fixture => (fixture.name, (first fixture).name, (second fixture).name)) =
        [("/a", "Blessed", "Passed"), ("/b", "Passed", "Passed"), ("/c", "Errored", "Errored"),
          ("/d", "Blessed", "Passed"), ("/e", "Errored", "Errored")] ∧
      ∃ summary, run after ⟨"/"⟩ true = .ok (summary, after) := by
  obtain ⟨fixtures, first, second, after, hfound, hrun, hfound', hrun', houtcomes, hagain⟩ :=
    bless_converges (rfl : mixed.content ⟨"/"⟩ = .ok .folder)
  refine ⟨fixtures, first, second, after, hfound, hrun, hfound', hrun', ?_, hagain⟩
  obtain ⟨found, hfixtures, hfirst⟩ := exists_fixtures_of_run hrun
  dsimp only at hfirst
  have hmixed : found = ["a", "b", "c", "d", "e"].map inRoot :=
    Except.ok.inj (hfixtures.symm.trans discover_mixed)
  have hsecond (fixture : Fixture) (hmem : fixture ∈ fixtures) :
      (second fixture).name = if (first fixture).name = "Errored" then "Errored" else "Passed" := by
    obtain ⟨hpassed, herrored, hfailed⟩ := houtcomes fixture hmem
    split_ifs with hname
    · exact Outcome.name_eq_errored_iff.2 (herrored.2 (Outcome.name_eq_errored_iff.1 hname))
    · rw [Outcome.name_eq_errored_iff] at hname
      refine Outcome.name_eq_passed_iff.2 (hpassed.2 ?_)
      cases h : first fixture with
      | passed => exact .inl rfl
      | blessed => exact .inr rfl
      | failed expected actual => exact absurd h (hfailed expected actual).1
      | errored e => exact absurd ⟨e, h⟩ hname
  calc fixtures.map (fun fixture => (fixture.name, (first fixture).name, (second fixture).name))
      = (fixtures.map fun fixture => (fixture, first fixture)).map fun result =>
          (result.1.name, result.2.name,
            if result.2.name = "Errored" then "Errored" else "Passed") := by
        rw [List.map_map]
        exact List.map_congr_left fun fixture hmem => by simp [hsecond fixture hmem]
    _ = _ := by
        rw [hfirst, hmixed]
        decide +kernel

end CTree.Fixture
