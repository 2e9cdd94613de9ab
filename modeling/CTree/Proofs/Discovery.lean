import CTree.Proofs.PathOrder
import CTree.Proofs.TreeConversion

/-!
# The fixtures below a path

Discovery finds the inputs at and below a path, each once, in the order of their paths,
whatever the order is in which their folders are listed. The two files of a fixture
are told apart by their extensions, so no document is an input and no two inputs have the
same document. Both files have the name of the fixture in front of their extensions, with
one exception: of the name `..in` the step up is left.
-/
namespace CTree.Store

variable {store other : Store} {root path : Path} {place location : Location}

/-! ## Stores with the same content -/

theorem follow_congr (hget : ∀ location, other.get? location = store.get? location)
    (location : Location) (pieces : List (List Char)) :
    other.follow location pieces = store.follow location pieces := by
  induction pieces generalizing location with
  | nil => rfl
  | cons piece pieces ih => simp only [follow, hget, ih]

theorem locate_congr (hcurrent : other.current = store.current)
    (hget : ∀ location, other.get? location = store.get? location) (path : Path) :
    other.locate path = store.locate path := by
  rw [locate, locate, origin, origin, hcurrent, follow_congr hget]

/-! ## Files below a place -/

/-- Whatever is at or below a place is named by the names that are joined to its path. -/
theorem names_below {bytes : ByteArray} {names : List String}
    (hlocate : store.locate root = .ok place)
    (h : store.get? (place ++ names) = some (.file bytes)) :
    store.Names (names.foldl Path.join root) (place ++ names) := by
  by_cases hne : names = []
  · rw [hne, List.append_nil] at h ⊢
    obtain ⟨location, hnames, hfile⟩ := names_of_file (content_eq_ok_iff.2 ⟨place, hlocate, h⟩)
    rw [hnames.locate_eq, hfile] at hlocate
    cases hlocate
    exact hnames
  · exact names_foldl_join hne hlocate h

/-- Files below a place with the same steps in their paths are the same file. -/
theorem names_eq_of_components {bytes bytes' : ByteArray} {names others : List String}
    (hlocate : store.locate root = .ok place)
    (h : store.get? (place ++ names) = some (.file bytes))
    (h' : store.get? (place ++ others) = some (.file bytes'))
    (heq : (names.foldl Path.join root).components = (others.foldl Path.join root).components) :
    names = others := by
  have hroot : root.text ≠ "" := by
    intro hempty
    rw [locate, if_pos hempty] at hlocate
    cases hlocate
  exact Path.names_eq_of_components hroot
    (fun name hname => isName_of_get? h name (List.mem_append_right _ hname))
    (fun name hname => isName_of_get? h' name (List.mem_append_right _ hname)) heq

/-- The paths that are listed are those of the files at and below the place. -/
theorem mem_filesBelow {content : Content} (hlocate : store.locate root = .ok place)
    (hplace : store.get? place = some content) :
    ∃ files, store.filesBelow root = .ok files ∧ ∀ path, path ∈ files ↔
      ∃ names bytes, store.get? (place ++ names) = some (.file bytes) ∧
        path = names.foldl Path.join root := by
  cases content with
  | file bytes =>
    refine ⟨_, filesBelow_of_file (content_eq_ok_iff.2 ⟨place, hlocate, hplace⟩), fun path => ?_⟩
    rw [List.mem_singleton]
    constructor
    · rintro rfl
      exact ⟨[], bytes, by rwa [List.append_nil], rfl⟩
    · rintro ⟨names, bytes', hfile, rfl⟩
      have hnil : names = [] := by
        by_contra hne
        cases hplace.symm.trans (get?_folder_of_append hne hfile)
      rw [hnil]
      rfl
  | folder =>
    refine ⟨_, filesBelow_of_folder hlocate hplace, fun path => ?_⟩
    rw [List.mem_filterMap]
    constructor
    · rintro ⟨⟨location, bytes | _⟩, hmem, hlisted⟩
      · have hfile := get?_of_mem_entries hmem
        simp only [pathBelow] at hlisted
        split_ifs at hlisted with hprefix
        obtain ⟨names, rfl⟩ := List.isPrefixOf_iff_prefix.1 hprefix
        cases hlisted
        exact ⟨names, bytes, hfile, by rw [List.drop_left]⟩
      · cases hlisted
    · rintro ⟨names, bytes, hfile, rfl⟩
      have hne : place ++ names ≠ [] := by
        intro hroot
        rw [hroot] at hfile
        cases hfile
      refine ⟨_, mem_entries_of_get? hfile hne, ?_⟩
      simp [pathBelow]

end CTree.Store

namespace CTree.Fixture
open CTree.Store

variable {store other : Store} {fixture another : Fixture} {root path : Path}
  {place location : Location}

/-! ## Inputs -/

/-- There is a file at the location, and something is left of its name without `.in`. -/
def IsInput (store : Store) (location : Location) : Prop :=
  ∃ folder stem bytes, location = folder ++ [String.ofList (stem ++ ".in".toList)] ∧ stem ≠ [] ∧
    store.get? location = some (.file bytes)

theorem IsInput.file (h : IsInput store location) :
    ∃ bytes, store.get? location = some (.file bytes) := by
  obtain ⟨-, -, bytes, -, -, hfile⟩ := h
  exact ⟨bytes, hfile⟩

theorem extension?_eq_in_iff {bytes : ByteArray} (hnames : store.Names path location)
    (hfile : store.get? location = some (.file bytes)) :
    path.extension? = some inputExtension ↔ IsInput store location := by
  obtain ⟨front, last, folder, hpieces, hname, -, -, rfl⟩ := hnames.exists_folder
  rw [hnames.extension?]
  constructor
  · intro hextension
    obtain ⟨stem, hsplit, hlast⟩ := stem_of_extension hextension
    refine ⟨folder, stem, bytes, ?_, (eq_of_splitName hsplit).1, hfile⟩
    rw [← hlast, String.ofList_toList]
  · rintro ⟨folder', stem, bytes', heq, hstem, -⟩
    obtain ⟨-, hlast⟩ := List.append_inj' heq rfl
    rw [List.singleton_inj.1 hlast, String.toList_ofList]
    have hsplit : splitName (stem ++ ".in".toList) = (stem, some "in".toList) :=
      splitName_append hstem (by decide)
    rw [hsplit]
    rfl

/-- The inputs that discovery finds, by the names that are joined to the path of the root. -/
theorem exists_inputs {content : Content} (hlocate : store.locate root = .ok place)
    (hplace : store.get? place = some content) :
    ∃ inputs : List Path, discover store root = .ok (inputs.map ofInput) ∧
      inputs.Pairwise (fun path other => path.before other = true) ∧
      ∀ path, path ∈ inputs ↔
        ∃ names, IsInput store (place ++ names) ∧ path = names.foldl Path.join root := by
  obtain ⟨files, hfiles, hmem⟩ := mem_filesBelow hlocate hplace
  obtain ⟨files', hfiles', -, hapart⟩ := filesBelow_spec (content_eq_ok_iff.2 ⟨place, hlocate, hplace⟩)
  obtain rfl : files = files' := by
    cases hfiles.symm.trans hfiles'
    rfl
  have hdiffer : files.Pairwise fun path other => path.components ≠ other.components := by
    refine hapart.imp_of_mem fun {path other} hpath hother hne heq => ?_
    obtain ⟨names, bytes, hfile, rfl⟩ := (hmem path).1 hpath
    obtain ⟨names', bytes', hfile', rfl⟩ := (hmem other).1 hother
    have hsame := names_eq_of_components hlocate hfile hfile' heq
    exact hne _ (names_below hlocate hfile) (hsame ▸ names_below hlocate hfile)
  rw [discover, hfiles]
  refine ⟨_, rfl, Path.pairwise_mergeSort (hdiffer.filter _), fun path => ?_⟩
  rw [List.mem_mergeSort, List.mem_filter, hmem, decide_eq_true_eq]
  constructor
  · rintro ⟨⟨names, bytes, hfile, rfl⟩, hextension⟩
    exact ⟨names, (extension?_eq_in_iff (names_below hlocate hfile) hfile).1 hextension, rfl⟩
  · rintro ⟨names, hinput, rfl⟩
    obtain ⟨bytes, hfile⟩ := hinput.file
    exact ⟨⟨names, bytes, hfile, rfl⟩,
      (extension?_eq_in_iff (names_below hlocate hfile) hfile).2 hinput⟩

/-! ## The two files of a fixture -/

/-- The paths of both files lead through the same folders. -/
theorem IsAt.components_eq (h : fixture.IsAt store location) :
    ∃ steps stem, fixture.input.components = steps ++ [.name (String.ofList (stem ++ ".in".toList))] ∧
      fixture.expected.components = steps ++
        [if stem = ['.'] then .up else .name (String.ofList (stem ++ ".out".toList))] := by
  obtain ⟨front, last, folder, hpieces, hname, -, -, rfl⟩ := h.names.exists_folder
  obtain ⟨stem, hsplit, hlast⟩ := stem_of_extension (h.names.extension? ▸ h.extension)
  refine ⟨Path.steps front, stem, ?_, ?_⟩
  · rw [Path.components_eq_name hpieces hname, ← hlast, String.ofList_toList]
  · have hnew := h.pieces_expected hpieces hname hsplit
    split_ifs at hnew ⊢ with hup
    · rw [Path.components_eq hnew (by decide)]
      rfl
    · have hslash : '/' ∉ stem := fun hmem => hname.1 (hlast ▸ List.mem_append_left _ hmem)
      have hdocument : IsName (String.ofList (stem ++ ".out".toList)) := by
        refine isName_ofList ?_ (by simp [hslash])
        rintro (heq | heq | heq) <;> simpa using congrArg List.length heq
      rw [← String.toList_ofList (l := stem ++ ".out".toList)] at hnew
      exact Path.components_eq_name hnew hdocument

/-- Both files have the name of the fixture, unless this is the step up. -/
theorem IsAt.texts (h : fixture.IsAt store location) :
    if fixture.input.fileName? = some "..in".toList then
      fixture.input.text = fixture.name ++ "in" ∧ fixture.expected.text = fixture.name
    else
      fixture.input.text = fixture.name ++ ".in" ∧
        fixture.expected.text = fixture.name ++ ".out" := by
  obtain ⟨front, last, folder, hpieces, hname, -, -, rfl⟩ := h.names.exists_folder
  obtain ⟨stem, hsplit, hlast⟩ := stem_of_extension (h.names.extension? ▸ h.extension)
  obtain ⟨lead, htext, -, hnew⟩ := Path.exists_lead_withExtension hpieces hname hsplit
  have hexpected : fixture.expected.text.toList = _ :=
    (congrArg (fun other => other.expected.text.toList) h.ofInput).trans (hnew expectedExtension)
  have hup : fixture.input.fileName? = some "..in".toList ↔ stem = ['.'] := by
    rw [Path.fileName?_eq hpieces hname, hlast, Option.some_inj]
    exact ⟨fun heq => List.append_cancel_right heq, fun heq => heq ▸ rfl⟩
  simp only [hup, ← String.toList_inj, String.toList_append, htext, hexpected, name, hnew]
  split_ifs with heq hempty
  · simp [heq]
  · cases hempty
  · exact ⟨rfl, rfl⟩

/-- Fixtures with different inputs have different documents. -/
theorem input_components_eq {place' : Location} (h : fixture.IsAt store place)
    (h' : another.IsAt store place')
    (heq : fixture.expected.components = another.expected.components) :
    fixture.input.components = another.input.components := by
  obtain ⟨steps, stem, hinput, hexpected⟩ := h.components_eq
  obtain ⟨steps', stem', hinput', hexpected'⟩ := h'.components_eq
  rw [hexpected, hexpected'] at heq
  obtain ⟨rfl, hlast⟩ := List.append_inj' heq rfl
  obtain rfl : stem = stem' := by
    have hlast := List.singleton_inj.1 hlast
    split_ifs at hlast with hup hup'
    · rw [hup, hup']
    · exact List.append_cancel_right (String.ofList_inj.1 (Component.name.inj hlast))
  rw [hinput, hinput']

/-- No document is an input. -/
theorem expected_components_ne {place' : Location} (h : fixture.IsAt store place)
    (h' : another.IsAt store place') : fixture.expected.components ≠ another.input.components := by
  obtain ⟨steps, stem, -, hexpected⟩ := h.components_eq
  obtain ⟨steps', stem', hinput', -⟩ := h'.components_eq
  rw [hexpected, hinput']
  intro heq
  obtain ⟨-, hlast⟩ := List.append_inj' heq rfl
  have hlast := List.singleton_inj.1 hlast
  split_ifs at hlast
  have := congrArg List.getLast? (String.ofList_inj.1 (Component.name.inj hlast))
  simp at this

/-! ## Discovery -/

/-- The fixtures are those of the inputs at and below a place, each once, in the order of
their paths. -/
structure Finds (store : Store) (place : Location) (fixtures : List Fixture) : Prop where
  complete : ∀ location, place <+: location → IsInput store location →
    ∃! fixture, fixture ∈ fixtures ∧ store.locate fixture.input = .ok location
  sound : ∀ fixture ∈ fixtures, ∃ location, place <+: location ∧ IsInput store location ∧
    store.locate fixture.input = .ok location
  nodup : fixtures.Nodup
  increasing : fixtures.Pairwise fun fixture other => fixture.input.before other.input = true

theorem isAt_ofInput {names : List String} (hlocate : store.locate root = .ok place)
    (h : IsInput store (place ++ names)) :
    (ofInput (names.foldl Path.join root)).IsAt store (place ++ names) := by
  obtain ⟨bytes, hfile⟩ := h.file
  have hnames := names_below hlocate hfile
  exact ⟨rfl, (extension?_eq_in_iff hnames hfile).2 h, hnames, bytes, hfile⟩

theorem IsAt.locate_eq (h : fixture.IsAt store location) :
    store.locate fixture.input = .ok location := by
  obtain ⟨bytes, hfile⟩ := h.file
  rw [h.names.locate_eq, hfile]
  rfl

/-- The fixtures that discovery finds, by the names that are joined to the path of the root. -/
theorem exists_fixtures {content : Content} (hlocate : store.locate root = .ok place)
    (hplace : store.get? place = some content) :
    ∃ fixtures, discover store root = .ok fixtures ∧
      fixtures.Pairwise (fun fixture other => fixture.input.before other.input = true) ∧
      ∀ fixture, fixture ∈ fixtures ↔
        ∃ names, IsInput store (place ++ names) ∧ fixture = ofInput (names.foldl Path.join root) := by
  obtain ⟨inputs, hfound, hsorted, hmem⟩ := exists_inputs hlocate hplace
  refine ⟨inputs.map ofInput, hfound, List.pairwise_map.2 hsorted, fun fixture => ?_⟩
  rw [List.mem_map]
  constructor
  · rintro ⟨path, hpath, rfl⟩
    obtain ⟨names, hinput, rfl⟩ := (hmem path).1 hpath
    exact ⟨names, hinput, rfl⟩
  · rintro ⟨names, hinput, rfl⟩
    exact ⟨_, (hmem _).2 ⟨names, hinput, rfl⟩, rfl⟩

theorem finds_of_mem_iff {fixtures : List Fixture} (hlocate : store.locate root = .ok place)
    (hsorted : fixtures.Pairwise fun fixture other => fixture.input.before other.input = true)
    (hmem : ∀ fixture, fixture ∈ fixtures ↔
      ∃ names, IsInput store (place ++ names) ∧ fixture = ofInput (names.foldl Path.join root)) :
    Finds store place fixtures where
  complete location hbelow hinput := by
    obtain ⟨names, rfl⟩ := hbelow
    have hat := (isAt_ofInput hlocate hinput).locate_eq
    refine ⟨_, ⟨(hmem _).2 ⟨names, hinput, rfl⟩, hat⟩, ?_⟩
    rintro fixture ⟨hfixture, hat'⟩
    obtain ⟨others, hinput', rfl⟩ := (hmem fixture).1 hfixture
    rw [(isAt_ofInput hlocate hinput').locate_eq] at hat'
    rw [List.append_cancel_left (Except.ok.inj hat')]
  sound fixture hfixture := by
    obtain ⟨names, hinput, rfl⟩ := (hmem fixture).1 hfixture
    exact ⟨_, List.prefix_append place names, hinput, (isAt_ofInput hlocate hinput).locate_eq⟩
  nodup := .of_map _ (Path.nodup_of_increasing (List.pairwise_map.2 hsorted))
  increasing := hsorted

/-- Stores with the same content have the same fixtures. -/
theorem discover_congr {content : Content} (hcurrent : other.current = store.current)
    (hget : ∀ location, other.get? location = store.get? location)
    (hroot : store.content root = .ok content) : discover other root = discover store root := by
  obtain ⟨place, hlocate, hplace⟩ := content_eq_ok_iff.1 hroot
  obtain ⟨inputs, hfound, hsorted, hmem⟩ := exists_inputs hlocate hplace
  obtain ⟨inputs', hfound', hsorted', hmem'⟩ :=
    exists_inputs ((locate_congr hcurrent hget root).trans hlocate) ((hget place).trans hplace)
  have hinput (location : Location) : IsInput other location ↔ IsInput store location := by
    simp only [IsInput, hget]
  have hsame : inputs' = inputs :=
    Path.eq_of_increasing hsorted' hsorted fun path => by simp only [hmem, hmem', hinput]
  rw [hfound, hfound', hsame]

/-- Any increasing list of the inputs that are listed is the one that discovery finds. -/
theorem discover_of_perm {files inputs : List Path} (hfiles : store.filesBelow root = .ok files)
    (hperm : inputs.Perm (files.filter (·.extension? = some inputExtension)))
    (hsorted : inputs.Pairwise fun path other => path.before other = true) :
    discover store root = .ok (inputs.map ofInput) := by
  have hdiffer := (hperm.pairwise_iff Ne.symm).1 (hsorted.imp Path.components_ne_of_before)
  have hsame := Path.eq_of_increasing (Path.pairwise_mergeSort hdiffer) hsorted fun path => by
    rw [List.mem_mergeSort, hperm.mem_iff]
  rw [discover, hfiles, ← hsame]

/-- Discovery of an existing root finds the inputs at and below it. It finds the same ones
in every store with the same content, in whatever order this lists them. Each fixture has
two files of one name, of which no other fixture has either. -/
theorem discover_exact {content : Content} (hroot : store.content root = .ok content) :
    ∃ place fixtures, store.locate root = .ok place ∧ discover store root = .ok fixtures ∧
      Finds store place fixtures ∧
      (∀ other : Store, other.current = store.current →
        (∀ location, other.get? location = store.get? location) →
        discover other root = .ok fixtures) ∧
      (∀ fixture ∈ fixtures,
        if fixture.input.fileName? = some "..in".toList then
          fixture.input.text = fixture.name ++ "in" ∧ fixture.expected.text = fixture.name
        else
          fixture.input.text = fixture.name ++ ".in" ∧
            fixture.expected.text = fixture.name ++ ".out") ∧
      ∀ fixture ∈ fixtures, ∀ another ∈ fixtures,
        (fixture ≠ another → fixture.expected.components ≠ another.expected.components) ∧
        fixture.expected.components ≠ another.input.components := by
  obtain ⟨place, hlocate, hplace⟩ := content_eq_ok_iff.1 hroot
  obtain ⟨fixtures, hfound, hsorted, hmem⟩ := exists_fixtures hlocate hplace
  refine ⟨place, fixtures, hlocate, hfound, finds_of_mem_iff hlocate hsorted hmem,
    fun other hcurrent hget => (discover_congr hcurrent hget hroot).trans hfound, ?_, ?_⟩
  · intro fixture hfixture
    obtain ⟨names, hinput, rfl⟩ := (hmem fixture).1 hfixture
    exact (isAt_ofInput hlocate hinput).texts
  · intro fixture hfixture another hanother
    obtain ⟨names, hinput, rfl⟩ := (hmem fixture).1 hfixture
    obtain ⟨others, hinput', rfl⟩ := (hmem another).1 hanother
    have hat := isAt_ofInput hlocate hinput
    have hat' := isAt_ofInput hlocate hinput'
    refine ⟨fun hne heq => hne ?_, expected_components_ne hat hat'⟩
    obtain ⟨bytes, hfile⟩ := hat.file
    obtain ⟨bytes', hfile'⟩ := hat'.file
    have hinputs := input_components_eq hat hat' heq
    rw [names_eq_of_components hlocate hfile hfile' hinputs]

/-- A store with an input in a folder, and one that would be in front of the folder as a text. -/
def nested : Store :=
  [["a-b.in"], ["a", "z.in"], ["a", ".in"]].foldl
    (fun store location => (store.putFile location ";".toUTF8).toOption.getD store)
    (Store.empty.ensureFolder ["a"])

theorem discover_exact_nested :
    ∃ fixtures, discover nested ⟨"/"⟩ = .ok fixtures ∧ Finds nested [] fixtures ∧
      ∃! fixture, fixture ∈ fixtures ∧ nested.locate fixture.input = .ok ["a", "z.in"] := by
  have hinput : IsInput nested ["a", "z.in"] :=
    ⟨["a"], ['z'], ";".toUTF8, by decide, by decide, by decide +kernel⟩
  obtain ⟨place, fixtures, hlocate, hfound, hfinds, -⟩ :=
    discover_exact (rfl : nested.content ⟨"/"⟩ = .ok .folder)
  obtain rfl : [] = place := Except.ok.inj hlocate
  exact ⟨fixtures, hfound, hfinds, hfinds.complete _ List.nil_prefix hinput⟩

/-- A store with an input of whose name the step up is left. -/
def dotted : Store := (Store.empty.putFile ["..in"] ";".toUTF8).toOption.getD .empty

/-- Its fixture has neither a name nor a document of its own. -/
theorem dotted_unnamed :
    ∃ fixture, discover dotted ⟨"/"⟩ = .ok [fixture] ∧ fixture.input.text = "/..in" ∧
      fixture.name = "/.." ∧ fixture.expected.text = "/.." ∧
      fixture.input.text ≠ fixture.name ++ ".in" ∧
      fixture.expected.text ≠ fixture.name ++ ".out" :=
  ⟨ofInput ⟨"/..in"⟩, Source.eq_ok_of_toOption (by decide +kernel), by decide +kernel⟩

end CTree.Fixture
