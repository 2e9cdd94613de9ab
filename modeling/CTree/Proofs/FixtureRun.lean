import CTree.Fixture.Summary
import CTree.Proofs.Discovery
import CTree.Proofs.FileReplacement

/-!
# Fixtures of one run do not interfere

What a fixture comes to depends on its input, its document and the folders of the
store. A fixture that is blessed changes its own document and nothing else, which is
neither the input nor the document of another fixture of the run. So each of them
comes to what it would have come to alone.
-/
namespace CTree.Fixture
open CTree.Store

variable {fixture : Fixture} {s t store : Store} {location expected : Location} {blessing : Bool}

/-! ## What a fixture sees -/

/-- The fixture cannot tell the stores apart. -/
structure Alike (fixture : Fixture) (s t : Store) : Prop where
  folders : SameFolders s t
  input : s.content fixture.input = t.content fixture.input
  expected : ∀ bytes, s.content fixture.expected = .ok (.file bytes) ↔
    t.content fixture.expected = .ok (.file bytes)

theorem isFile_iff {path : Path} :
    store.isFile path = true ↔ ∃ bytes, store.content path = .ok (.file bytes) := by
  rw [isFile]
  split <;> simp_all

namespace Alike

theorem hasExpected_eq (h : fixture.Alike s t) :
    fixture.hasExpected s = fixture.hasExpected t := by
  rw [Bool.eq_iff_iff, hasExpected, hasExpected, isFile_iff, isFile_iff]
  exact exists_congr h.expected

theorem readTree_eq (h : fixture.Alike s t) :
    s.readTree fixture.input = t.readTree fixture.input := by
  simp only [readTree, readSource, readText, readBytes, h.input]

theorem readExpected_eq (h : fixture.Alike s t) :
    fixture.readExpected s = fixture.readExpected t := by
  rw [readExpected, readExpected, h.hasExpected_eq]
  split_ifs with hfile
  · obtain ⟨bytes, hbytes⟩ := isFile_iff.1 hfile
    simp only [readSource, readText, readBytes, hbytes, (h.expected bytes).2 hbytes]
  · rfl

theorem check_eq (h : fixture.Alike s t) : fixture.check s = fixture.check t := by
  simp only [check, compare, h.readTree_eq, h.readExpected_eq]

end Alike

/-- Whether a text can be written depends on the folders alone. -/
theorem replaceText_fst_eq (h : SameFolders s t) (path : Path) (text : String) :
    (s.replaceText path text).1 = (t.replaceText path text).1 := by
  rw [replaceText, replaceText]
  rcases replaceFile_cases s path text.toUTF8 with
      ⟨location, hnames, hput, heq⟩ | ⟨⟨refusal, heq⟩, hfolder⟩ <;>
    rcases replaceFile_cases t path text.toUTF8 with
      ⟨location', hnames', hput', heq'⟩ | ⟨⟨refusal', heq'⟩, hfolder'⟩ <;>
    rw [heq, heq']
  · exact absurd ((h.folder _).2 (hfolder' _ (hnames.of_sameFolders h))) hput.free
  · exact absurd ((h.folder _).1 (hfolder _ (hnames'.of_sameFolders h.symm))) hput'.free
  · rfl

namespace Alike

theorem blessFile_fst_eq (h : fixture.Alike s t) :
    (fixture.blessFile s).1 = (fixture.blessFile t).1 := by
  simp only [blessFile, convertFile, readDocument, h.readTree_eq]
  cases t.readTree fixture.input >>= Source.encode .pretty with
  | error e => rfl
  | ok text => exact replaceText_fst_eq h.folders fixture.expected text

theorem process_fst_eq (h : fixture.Alike s t) (blessing : Bool) :
    (fixture.process blessing s).1 = (fixture.process blessing t).1 := by
  have hbless := h.blessFile_fst_eq
  have hblessed : fixture.isBlessed s = fixture.isBlessed t := by
    funext outcome
    cases outcome <;> simp [isBlessed, h.hasExpected_eq]
  rw [process, process, h.check_eq, hblessed]
  split_ifs
  · rcases hs : fixture.blessFile s with ⟨result, after⟩
    rcases ht : fixture.blessFile t with ⟨result', after'⟩
    obtain rfl : result = result' := by simpa [hs, ht] using hbless
    cases result <;> rfl
  · rfl

/-- It is enough that the stores agree at the input and at the document. -/
theorem of_get? (hat : fixture.IsAt s location) (hfolders : SameFolders s t)
    (hinput : t.get? location = s.get? location)
    (hexpected : ∀ document, s.Names fixture.expected document →
      t.get? document = s.get? document) : fixture.Alike s t where
  folders := hfolders
  input := by rw [hat.names.content_eq, (hat.names.of_sameFolders hfolders).content_eq, hinput]
  expected bytes := by
    constructor <;> intro hfile <;> obtain ⟨document, hnames, hget⟩ := names_of_file hfile
    · rw [(hnames.of_sameFolders hfolders).content_eq_ok_iff, hexpected document hnames, hget]
    · have hnames' := hnames.of_sameFolders hfolders.symm
      rw [hnames'.content_eq_ok_iff, ← hexpected document hnames', hget]

end Alike

/-! ## One fixture -/

theorem check_ne_blessed (fixture : Fixture) (store : Store) :
    fixture.check store ≠ .blessed := by
  rw [check]
  split <;> simp

/-- Processing a fixture blesses it or leaves the store as it is. -/
theorem process_cases (fixture : Fixture) (blessing : Bool) (store : Store) :
    (fixture.process blessing store).1 ≠ .blessed ∧
        (fixture.process blessing store).2 = store ∨
      blessing = true ∧ fixture.isBlessed store (fixture.check store) = true ∧
        ∃ text location h, store.readDocument .pretty fixture.input = .ok text ∧
          store.Names fixture.expected location ∧
          fixture.process blessing store =
            (.blessed, store.put location (.file text.toUTF8) h) := by
  rw [process]
  split_ifs with hdue
  · obtain ⟨hblessing, hblessed⟩ := Bool.and_eq_true_iff.1 hdue
    rw [blessFile, convertFile]
    cases hread : store.readDocument .pretty fixture.input with
    | error e => exact .inl ⟨by simp, rfl⟩
    | ok text =>
      simp only [replaceText]
      rcases replaceFile_cases store fixture.expected text.toUTF8 with
        ⟨location, hnames, h, heq⟩ | ⟨⟨refusal, heq⟩, -⟩
      · refine .inr ⟨hblessing, hblessed, text, location, h, rfl, hnames, ?_⟩
        rw [heq]
        rfl
      · rw [heq]
        exact .inl ⟨by simp [Except.mapError], rfl⟩
  · exact .inl ⟨check_ne_blessed fixture store, rfl⟩

/-! ## Outcomes by name -/

namespace Outcome

theorem name_eq_passed_iff {outcome : Outcome} : outcome.name = "Passed" ↔ outcome = .passed := by
  cases outcome <;> simp [name]

theorem name_eq_blessed_iff {outcome : Outcome} :
    outcome.name = "Blessed" ↔ outcome = .blessed := by
  cases outcome <;> simp [name]

theorem name_eq_errored_iff {outcome : Outcome} :
    outcome.name = "Errored" ↔ ∃ e, outcome = .errored e := by
  cases outcome <;> simp [name]

instance : DecidablePred (· = Outcome.passed) := fun _ => decidable_of_iff _ name_eq_passed_iff

instance : DecidablePred (· = Outcome.blessed) := fun _ => decidable_of_iff _ name_eq_blessed_iff

end Outcome

instance {E A : Type} : DecidablePred fun result : Except E A => ∃ e, result = .error e
  | .ok _ => isFalse fun ⟨_, h⟩ => by cases h
  | .error e => isTrue ⟨e, rfl⟩

/-! ## A run -/

theorem run_of_discover {root : Path} {fixtures : List Fixture} (blessing : Bool)
    (h : discover store root = .ok fixtures) :
    run store root blessing = .ok (⟨(processAll blessing fixtures store).1⟩,
      (processAll blessing fixtures store).2) := by
  rw [run, h]
  rfl

theorem exists_fixtures_of_run {root : Path} {summary : Summary} {after : Store}
    (h : run store root blessing = .ok (summary, after)) :
    ∃ fixtures, discover store root = .ok fixtures ∧
      summary.results = (processAll blessing fixtures store).1 := by
  rw [run] at h
  cases hfound : discover store root with
  | error e => rw [hfound] at h; cases h
  | ok fixtures => rw [hfound] at h; cases h; exact ⟨fixtures, rfl, rfl⟩

/-- What is left of a store behind a run over fixtures: the same folders, with the same
fixtures in them, and the same files but for the documents of those that were blessed. -/
structure Leaves (blessing : Bool) (fixtures : List Fixture) (s t : Store) : Prop where
  folders : SameFolders s t
  found : ∀ root found, discover s root = .ok found → discover t root = .ok found
  only : ∀ location, t.get? location = s.get? location ∨
    ∃ fixture ∈ fixtures, (fixture.process blessing s).1 = .blessed ∧
      s.Names fixture.expected location
  blessed : ∀ fixture ∈ fixtures, (fixture.process blessing s).1 = .blessed →
    ∃ location text, s.Names fixture.expected location ∧
      s.readDocument .pretty fixture.input = .ok text ∧
      t.get? location = some (.file text.toUTF8)

/-- The inputs of the fixtures are files, each a different one. -/
structure Apart (fixtures : List Fixture) (store : Store) : Prop where
  isAt : ∀ fixture ∈ fixtures, ∃ location, fixture.IsAt store location
  pairwise : fixtures.Pairwise fun fixture other =>
    ∀ location, fixture.IsAt store location → ¬other.IsAt store location

/-- One fixture leaves a store in which the others find what they found before. -/
theorem alike_process {other : Fixture} (hat : fixture.IsAt s location)
    (hother : ∃ place, other.IsAt s place) (hapart : ¬other.IsAt s location) :
    other.Alike s (fixture.process blessing s).2 := by
  rcases fixture.process_cases blessing s with ⟨-, heq⟩ | ⟨-, -, text, document, h, -, hnames, heq⟩
  · rw [heq]
    exact ⟨.refl s, rfl, fun _ => .rfl⟩
  · obtain ⟨place, hplace⟩ := hother
    have hbeside := hat.beside hnames
    rw [heq]
    refine .of_get? hplace (.put s document _ h) ?_ fun document' hnames' => ?_
    · rw [get?_put, if_neg]
      rintro rfl
      exact hbeside.extension?_ne hplace.names hplace.extension
    · rw [get?_put, if_neg]
      rintro rfl
      exact hapart (hbeside.input_eq (hplace.beside hnames') ▸ hplace)

theorem Alike.symm (h : fixture.Alike s t) : fixture.Alike t s :=
  ⟨h.folders.symm, h.input.symm, fun bytes => (h.expected bytes).symm⟩

theorem IsAt.of_alike (hat : fixture.IsAt s location) (h : fixture.Alike s t) :
    fixture.IsAt t location := by
  have hnames := hat.names.of_sameFolders h.folders
  obtain ⟨bytes, hfile⟩ := hat.file
  refine ⟨hat.ofInput, hat.extension, hnames, bytes, ?_⟩
  rw [← hnames.content_eq_ok_iff, ← h.input, hat.names.content_eq_ok_iff]
  exact hfile

theorem Apart.of_alike {fixtures : List Fixture} (h : Apart fixtures s)
    (halike : ∀ fixture ∈ fixtures, fixture.Alike s t) : Apart fixtures t where
  isAt fixture hmem := (h.isAt fixture hmem).imp fun _ hat => hat.of_alike (halike fixture hmem)
  pairwise := h.pairwise.imp_of_mem fun hmem hmem' hne location hat hat' =>
    hne location (hat.of_alike (halike _ hmem).symm) (hat'.of_alike (halike _ hmem').symm)

/-- What the first fixture leaves of a store. -/
theorem leaves_process (hat : fixture.IsAt s location) (blessing : Bool) :
    Leaves blessing [fixture] s (fixture.process blessing s).2 := by
  rcases fixture.process_cases blessing s with ⟨hne, heq⟩ | ⟨-, -, text, document, h, hread, hnames, heq⟩
  · rw [heq]
    refine ⟨.refl s, fun _ _ => id, fun _ => .inl rfl, fun other hmem hblessed => ?_⟩
    cases List.mem_singleton.1 hmem
    exact absurd hblessed hne
  · rw [heq]
    refine ⟨.put s document _ h, fun root found hfound => ?_, fun other => ?_, ?_⟩
    · exact discover_put hfound (hat.beside hnames) h
    · rw [get?_put]
      split_ifs with hother
      · exact .inr ⟨fixture, List.mem_singleton_self _, by rw [heq], hother ▸ hnames⟩
      · exact .inl rfl
    · intro other hmem _
      cases List.mem_singleton.1 hmem
      exact ⟨document, text, hnames, hread, by rw [get?_put, if_pos rfl]⟩

/-- Every fixture comes to what it comes to alone, and what is left of the store is
what they leave of it one by one. -/
theorem processAll_spec (blessing : Bool) {fixtures : List Fixture} (h : Apart fixtures s) :
    (processAll blessing fixtures s).1 =
        fixtures.map (fun fixture => (fixture, (fixture.process blessing s).1)) ∧
      Leaves blessing fixtures s (processAll blessing fixtures s).2 := by
  induction fixtures generalizing s with
  | nil => exact ⟨rfl, .refl s, fun _ _ => id, fun _ => .inl rfl, by simp⟩
  | cons fixture fixtures ih =>
    obtain ⟨location, hat⟩ := h.isAt fixture List.mem_cons_self
    obtain ⟨hfirst, hrest⟩ := List.pairwise_cons.1 h.pairwise
    have halike (other : Fixture) (hmem : other ∈ fixtures) :
        other.Alike s (fixture.process blessing s).2 :=
      alike_process hat (h.isAt other (List.mem_cons_of_mem _ hmem)) (hfirst other hmem location hat)
    have hsame (other : Fixture) (hmem : other ∈ fixtures) :=
      (halike other hmem).process_fst_eq blessing
    have hapart : Apart fixtures s :=
      ⟨fun other hmem => h.isAt other (List.mem_cons_of_mem _ hmem), hrest⟩
    obtain ⟨hresults, hleaves⟩ := ih (hapart.of_alike halike)
    have hstep := leaves_process hat blessing
    refine ⟨?_, ?_, ?_, ?_, ?_⟩
    · simp only [processAll, hresults, List.map_cons, List.cons.injEq, true_and]
      exact List.map_congr_left fun other hmem => by rw [hsame other hmem]
    · exact hstep.folders.trans hleaves.folders
    · exact fun root found hfound => hleaves.found root found (hstep.found root found hfound)
    · intro place
      rcases hleaves.only place with heq | ⟨other, hmem, hblessed, hnames⟩
      · rcases hstep.only place with hsame' | ⟨other, hmem, hblessed, hnames⟩
        · exact .inl (heq.trans hsame')
        · exact .inr ⟨other, List.mem_cons.2 (.inl (List.mem_singleton.1 hmem)), hblessed, hnames⟩
      · exact .inr ⟨other, List.mem_cons_of_mem _ hmem, hsame other hmem ▸ hblessed,
          hnames.of_sameFolders hstep.folders.symm⟩
    · intro other hmem hblessed
      rcases List.mem_cons.1 hmem with rfl | hmem
      · obtain ⟨place, text, hnames, hread, hfile⟩ :=
          hstep.blessed other (List.mem_singleton_self _) hblessed
        refine ⟨place, text, hnames, hread, ?_⟩
        rcases hleaves.only place with heq | ⟨another, hmem', hblessed', hnames'⟩
        · exact heq.trans hfile
        · -- Another fixture with this document would be one with this input.
          obtain ⟨location', hat'⟩ := h.isAt another (List.mem_cons_of_mem _ hmem')
          have hbeside' := hat'.beside (hnames'.of_sameFolders hstep.folders.symm)
          have hinput := (hat.beside hnames).input_eq hbeside'
          exact absurd (hinput ▸ hat') (hfirst another hmem' location hat)
      · obtain ⟨place, text, hnames, hread, hfile⟩ :=
          hleaves.blessed other hmem (hsame other hmem ▸ hblessed)
        refine ⟨place, text, hnames.of_sameFolders hstep.folders.symm, ?_, hfile⟩
        rw [← hread, readDocument, readDocument, (halike other hmem).readTree_eq]

theorem processAll_eq_self {fixtures : List Fixture}
    (h : ∀ fixture ∈ fixtures, (fixture.process blessing store).1 ≠ .blessed) :
    (processAll blessing fixtures store).2 = store := by
  induction fixtures with
  | nil => rfl
  | cons fixture fixtures ih =>
    have hsame : (fixture.process blessing store).2 = store := by
      rcases fixture.process_cases blessing store with ⟨-, heq⟩ | ⟨-, -, _, _, _, -, -, heq⟩
      · exact heq
      · exact absurd (by rw [heq]) (h fixture List.mem_cons_self)
    change (processAll blessing fixtures (fixture.process blessing store).2).2 = store
    rw [hsame]
    exact ih fun other hmem => h other (List.mem_cons_of_mem _ hmem)

/-- The fixture passes, its input has no tree, or it has a document that cannot be read
as one. -/
def Spared (fixture : Fixture) (store : Store) : Prop :=
  fixture.check store = .passed ∨ (∃ e, store.readTree fixture.input = .error e) ∨
    fixture.hasExpected store = true ∧ ∃ e, fixture.readExpected store = .error e

instance : DecidablePred fun fixture : Fixture => fixture.Spared store := fun _ =>
  inferInstanceAs (Decidable (_ ∨ _ ∨ _ ∧ _))

theorem Spared.process_ne_blessed (h : fixture.Spared store) (blessing : Bool) :
    (fixture.process blessing store).1 ≠ .blessed := by
  rcases fixture.process_cases blessing store with ⟨hne, -⟩ | ⟨-, hdue, text, _, _, hread, -, -⟩
  · exact hne
  · exfalso
    rcases h with hpassed | ⟨e, htree⟩ | ⟨hfile, e, hexpected⟩
    · simp [hpassed, isBlessed] at hdue
    · rw [readDocument, htree] at hread
      cases hread
    · have herrored : ∃ e, fixture.check store = .errored e := by
        rw [check, compare, hexpected]
        cases store.readTree fixture.input <;> exact ⟨_, rfl⟩
      obtain ⟨e, herrored⟩ := herrored
      simp [herrored, isBlessed, hfile] at hdue

/-- The document of a fixture that is not blessed is left alone by the whole run. -/
theorem Leaves.get?_expected {fixtures : List Fixture} (hleaves : Leaves blessing fixtures s t)
    (hapart : Apart fixtures s) (hmem : fixture ∈ fixtures)
    (hne : (fixture.process blessing s).1 ≠ .blessed) (hnames : s.Names fixture.expected expected) :
    t.get? expected = s.get? expected := by
  rcases hleaves.only expected with heq | ⟨other, hmem', hblessed, hnames'⟩
  · exact heq
  · obtain ⟨location, hat⟩ := hapart.isAt fixture hmem
    obtain ⟨location', hat'⟩ := hapart.isAt other hmem'
    have hinput : location = location' := (hat.beside hnames).input_eq (hat'.beside hnames')
    have hdiffer : other ≠ fixture := by
      rintro rfl
      exact hne hblessed
    have : Std.Symm fun fixture other : Fixture =>
        ∀ location, fixture.IsAt s location → ¬other.IsAt s location :=
      ⟨fun _ _ hne location hat hat' => hne location hat' hat⟩
    exact absurd (hinput ▸ hat) (hapart.pairwise.forall hmem' hmem hdiffer location' hat')

/-- A run finds the fixtures of an existing root and reports each once, with what it
comes to alone in the store from before the run. Behind the run nothing differs but the
documents of the blessed fixtures, which are those of their inputs. Nothing at all
differs where blessing is not asked for, and no document is touched of a fixture that
passes, has an input without a tree, or has a document that cannot be read.

This is about stores of regular files and folders. Of a document that is a link to another
one it does not hold, for what is read through the link changes when the other is blessed. -/
theorem run_independent {root : Path} {content : Content}
    (hroot : store.content root = .ok content) (blessing : Bool) :
    ∃ fixtures after, discover store root = .ok fixtures ∧
      run store root blessing = .ok (⟨fixtures.map fun fixture =>
        (fixture, (fixture.process blessing store).1)⟩, after) ∧
      Leaves blessing fixtures store after ∧
      (blessing = false → after = store) ∧
      ∀ fixture ∈ fixtures, fixture.Spared store → ∀ location,
        store.Names fixture.expected location → after.get? location = store.get? location := by
  obtain ⟨fixtures, hfound, hat, hpairwise⟩ := discover_spec hroot
  have hapart : Apart fixtures store := ⟨hat, hpairwise⟩
  obtain ⟨hresults, hleaves⟩ := processAll_spec blessing hapart
  refine ⟨fixtures, (processAll blessing fixtures store).2, hfound, ?_, hleaves, ?_, ?_⟩
  · rw [run_of_discover blessing hfound, hresults]
  · rintro rfl
    refine processAll_eq_self fun fixture _ => ?_
    exact check_ne_blessed fixture store
  · intro fixture hmem hspared location hnames
    exact hleaves.get?_expected hapart hmem (hspared.process_ne_blessed blessing) hnames

/-- A store with five inputs: `a` has no document, `b` has the document of its tree, `c` is no
source, `d` has the document of another tree, and what `e` has is no document. -/
def mixed : Store :=
  [("d.in", "int x;"), ("d.out", "\"x\""), ("b.in", ""),
    ("b.out", "\x7b\"compilationUnit\": \"<EOF>\"\x7d"), ("a.in", ";"), ("e.in", ";"),
    ("e.out", "["), ("c.in", "int"), ("c.out", "\"x\"")].foldl
    (fun store file => (store.putFile [file.1] file.2.toUTF8).toOption.getD store) .empty

/-- The fixture of this name in the root. -/
def inRoot (stem : String) : Fixture := ofInput ⟨"/" ++ stem ++ ".in"⟩

theorem discover_mixed : discover mixed ⟨"/"⟩ = .ok (["a", "b", "c", "d", "e"].map inRoot) := by
  have hfiles := filesBelow_of_folder (rfl : mixed.locate ⟨"/"⟩ = .ok []) rfl
  change discover mixed ⟨"/"⟩ =
    .ok ((["a", "b", "c", "d", "e"].map fun stem => (inRoot stem).input).map ofInput)
  exact discover_of_perm hfiles (by decide +kernel) (by decide +kernel)

theorem names_mixed {stem : String} (h : stem ∈ ["a", "b", "c", "d", "e"]) :
    mixed.Names (inRoot stem).expected [stem ++ ".out"] := by
  have htarget : ∀ stem ∈ ["a", "b", "c", "d", "e"],
      mixed.target (inRoot stem).expected = .ok [stem ++ ".out"] := by
    decide +kernel
  exact ⟨htarget stem h, rfl⟩

/-- One fixture is blessed in front of one that passes, and one without a tree does not keep the
next from being blessed. -/
theorem run_independent_mixed :
    ∃ fixtures after, discover mixed ⟨"/"⟩ = .ok fixtures ∧
      run mixed ⟨"/"⟩ true = .ok (⟨fixtures.map fun fixture =>
        (fixture, (fixture.process true mixed).1)⟩, after) ∧
      Leaves true fixtures mixed after ∧
      fixtures.map (fun fixture => (fixture.name, (fixture.process true mixed).1.name)) =
        [("/a", "Blessed"), ("/b", "Passed"), ("/c", "Errored"), ("/d", "Blessed"),
          ("/e", "Errored")] ∧
      (∀ stem ∈ ["b", "c", "e"], after.get? [stem ++ ".out"] = mixed.get? [stem ++ ".out"]) ∧
      ∀ stem ∈ ["a", "d"], ∃ text, mixed.readDocument .pretty (inRoot stem).input = .ok text ∧
        after.get? [stem ++ ".out"] = some (.file text.toUTF8) := by
  obtain ⟨fixtures, after, hfound, hrun, hleaves, -, hkept⟩ :=
    run_independent (rfl : mixed.content ⟨"/"⟩ = .ok .folder) true
  obtain rfl : ["a", "b", "c", "d", "e"].map inRoot = fixtures :=
    Except.ok.inj (discover_mixed.symm.trans hfound)
  have hspared : ∀ stem ∈ ["b", "c", "e"],
      stem ∈ ["a", "b", "c", "d", "e"] ∧ (inRoot stem).Spared mixed := by
    decide +kernel
  have hblessed : ∀ stem ∈ ["a", "d"],
      stem ∈ ["a", "b", "c", "d", "e"] ∧ ((inRoot stem).process true mixed).1 = .blessed := by
    decide +kernel
  refine ⟨_, after, hfound, hrun, hleaves, by decide +kernel, fun stem hstem => ?_,
    fun stem hstem => ?_⟩
  · obtain ⟨hmem, hstem⟩ := hspared stem hstem
    exact hkept _ (List.mem_map_of_mem hmem) hstem _ (names_mixed hmem)
  · obtain ⟨hmem, hstem⟩ := hblessed stem hstem
    obtain ⟨location, text, hnames, hread, hfile⟩ :=
      hleaves.blessed _ (List.mem_map_of_mem hmem) hstem
    exact ⟨text, hread, hnames.unique (names_mixed hmem) ▸ hfile⟩

end CTree.Fixture
