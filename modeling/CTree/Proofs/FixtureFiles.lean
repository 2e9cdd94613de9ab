import CTree.Fixture.Basic
import CTree.Proofs.StorePaths

/-!
# The files of fixtures

An input and its expected document lie in the same folder and their names differ in
the extension alone. So the documents of two inputs are two files, and none of them
is an input. (The document of an input called `..in` would be `..`, which names no
file at all.)

The fixtures below a path have different inputs, and a new document among them adds
no fixture.
-/
namespace CTree.Store

/-! ## Extensions -/

theorem cut_eq_none {s : List Char} (h : '.' ∉ s) : splitName.cut s = none := by
  induction s with
  | nil => rfl
  | cons c s ih =>
    obtain ⟨hne, hs⟩ := not_or.1 (List.mem_cons.not.1 h)
    simp [splitName.cut, ih hs, Ne.symm hne]

theorem cut_append (stem : List Char) {extension : List Char} (h : '.' ∉ extension) :
    splitName.cut (stem ++ '.' :: extension) = some (stem, extension) := by
  induction stem with
  | nil => simp [splitName.cut, cut_eq_none h]
  | cons c stem ih => simp [splitName.cut, ih]

theorem eq_of_cut {s before behind : List Char} (h : splitName.cut s = some (before, behind)) :
    s = before ++ '.' :: behind := by
  induction s generalizing before with
  | nil => cases h
  | cons c s ih =>
    rw [splitName.cut] at h
    split at h
    next hs => cases h; rw [ih hs, List.cons_append]
    next => split_ifs at h with hc; cases h; rw [hc, List.nil_append]

theorem splitName_append {stem extension : List Char} (hstem : stem ≠ [])
    (h : '.' ∉ extension) : splitName (stem ++ '.' :: extension) = (stem, some extension) := by
  rw [splitName, cut_append stem h]
  cases stem with
  | nil => exact absurd rfl hstem
  | cons => rfl

theorem eq_of_splitName {name stem extension : List Char}
    (h : splitName name = (stem, some extension)) :
    stem ≠ [] ∧ name = stem ++ '.' :: extension := by
  rw [splitName] at h
  cases hcut : splitName.cut name with
  | none => rw [hcut] at h; cases h
  | some both =>
    obtain ⟨_ | ⟨c, before⟩, behind⟩ := both <;> rw [hcut] at h <;> cases h
    exact ⟨List.cons_ne_nil c before, eq_of_cut hcut⟩

namespace Path
variable {path : Path} {front : List (List Char)}

/-- Whether a path begins at the root can be told from the pieces before the last one. -/
theorem isAbsolute_eq {last : List Char} (h : path.pieces = front ++ [last]) :
    path.isAbsolute = decide (front.head? = some []) := by
  rw [pieces] at h
  rw [isAbsolute]
  cases htext : path.text.toList with
  | nil => cases front <;> simp_all [splitOn]
  | cons c s =>
    obtain ⟨piece, pieces, hs⟩ := List.exists_cons_of_ne_nil (splitOn_ne_nil '/' s)
    by_cases hc : c = '/'
    · cases front <;> simp_all [splitOn]
    · rw [htext, splitOn, if_neg hc, hs] at h
      cases front with
      | nil => simp [hc]
      | cons first front => cases h; simp [hc]

/-- The steps of the pieces before the last one. -/
def steps (front : List (List Char)) : List Component :=
  let steps := front.filterMap Component.ofPiece?
  if front.head? = some [] then .root :: steps
  else if front.head? = some ['.'] then .here :: steps
  else steps

theorem components_eq {last : List Char} (h : path.pieces = front ++ [last])
    (hhere : last ≠ ['.']) :
    path.components = steps front ++ (Component.ofPiece? last).toList := by
  have hhead : path.pieces.head? = some ['.'] ↔ front.head? = some ['.'] := by
    rw [h]
    cases front <;> simp [hhere]
  have hsteps : path.pieces.filterMap Component.ofPiece? =
      front.filterMap Component.ofPiece? ++ (Component.ofPiece? last).toList := by
    rw [h, List.filterMap_append]
    cases hlast : Component.ofPiece? last <;> simp [hlast]
  simp only [components, steps, isAbsolute_eq h, hhead, hsteps, decide_eq_true_eq]
  split_ifs <;> rfl

theorem ofPiece?_name {name : String} (hname : IsName name) :
    Component.ofPiece? name.toList = some (.name name) := by
  have hsteps := hname.not_step
  simp only [not_or] at hsteps
  simp [Component.ofPiece?, hsteps]

theorem components_eq_name {last : String} (h : path.pieces = front ++ [last.toList])
    (hname : IsName last) : path.components = steps front ++ [.name last] := by
  rw [components_eq h fun hhere => hname.not_step (.inr (.inl hhere)), ofPiece?_name hname]
  rfl

theorem fileName?_eq {last : String} (h : path.pieces = front ++ [last.toList])
    (hname : IsName last) : path.fileName? = some last.toList := by
  rw [fileName?, components_eq_name h hname, List.getLast?_concat]

/-- Nothing behind the last name is dropped where there is nothing behind it. -/
theorem trimBack_reverse {lead last : List Char} (hslash : '/' ∉ last) (hne : last ≠ [])
    (hdot : last ≠ ['.']) : trimBack (lead ++ last).reverse = (lead ++ last).reverse := by
  obtain ⟨init, c, rfl⟩ := (List.eq_nil_or_concat' last).resolve_left hne
  rw [← List.append_assoc, List.reverse_concat]
  have hc : c ≠ '/' := by rintro rfl; simp at hslash
  rcases List.eq_nil_or_concat' init with rfl | ⟨init, d, rfl⟩
  · have : c ≠ '.' := by rintro rfl; exact hdot rfl
    rw [trimBack] <;> simp_all
  · have hd : d ≠ '/' := by rintro rfl; simp at hslash
    rw [← List.append_assoc, List.reverse_concat, trimBack] <;> simp_all

theorem extension?_eq {last : String} (h : path.pieces = front ++ [last.toList])
    (hname : IsName last) :
    path.extension? = (splitName last.toList).2.map String.ofList := by
  rw [extension?, fileName?_eq h hname, Option.bind_some]

/-- The text of a path ends with its last name. With another extension, what leads up to the
name stays, and the stem, unless the step up is left of it. -/
theorem exists_lead_withExtension {last : String} {stem extension : List Char}
    (h : path.pieces = front ++ [last.toList]) (hname : IsName last)
    (hsplit : splitName last.toList = (stem, some extension)) :
    ∃ lead, path.text.toList = lead ++ stem ++ '.' :: extension ∧
      (∀ s, '/' ∉ s → splitOn '/' (lead ++ s) = front ++ [s]) ∧
      ∀ new, (path.withExtension new).text.toList =
        if stem = ['.'] then lead ++ ['.', '.']
        else if new = "" then lead ++ stem else lead ++ stem ++ '.' :: new.toList := by
  obtain ⟨-, hlast⟩ := eq_of_splitName hsplit
  obtain ⟨lead, htext, hcut⟩ := exists_lead h
  have hwhole : path.text.toList = lead ++ stem ++ '.' :: extension := by
    rw [htext, hlast, List.append_assoc]
  have htrim : (trimBack path.text.toList.reverse).reverse = path.text.toList := by
    have hstop := hname.not_step
    simp only [not_or] at hstop
    rw [htext, trimBack_reverse hname.1 hstop.1 hstop.2.1, List.reverse_reverse]
  have hbase : path.text.toList.take
      (path.text.toList.length - (last.toList.length - stem.length)) = lead ++ stem := by
    rw [hwhole, hlast]
    refine List.take_left' ?_
    simp only [List.length_append, List.length_cons]
    omega
  refine ⟨lead, hwhole, hcut, fun new => ?_⟩
  rw [withExtension, fileName?_eq h hname]
  simp only [hsplit, htrim, hbase, and_true]
  split_ifs with hup hnew
  · rw [String.toList_ofList, hup, List.append_assoc]
    rfl
  · exact String.toList_ofList
  · simp

theorem pieces_withExtension {last new : String} {stem extension : List Char}
    (h : path.pieces = front ++ [last.toList]) (hname : IsName last)
    (hsplit : splitName last.toList = (stem, some extension))
    (hnew : new ≠ "") (hslash : '/' ∉ new.toList) :
    (path.withExtension new).pieces =
      front ++ [if stem = ['.'] then ['.', '.'] else stem ++ '.' :: new.toList] := by
  obtain ⟨-, hlast⟩ := eq_of_splitName hsplit
  have hstem : '/' ∉ stem := fun hmem => hname.1 (hlast ▸ List.mem_append_left _ hmem)
  obtain ⟨lead, -, hcut, htext⟩ := exists_lead_withExtension h hname hsplit
  rw [pieces, htext, if_neg hnew]
  split_ifs
  · exact hcut ['.', '.'] (by decide)
  · rw [List.append_assoc]
    exact hcut _ (by simp [hstem, hslash])

end Path

/-! ## Entries and listed files -/

variable {store : Store} {root path : Path} {folder location : Location}

theorem Names.extension? {last : String} (h : store.Names path (folder ++ [last])) :
    path.extension? = (splitName last.toList).2.map String.ofList := by
  obtain ⟨front, other, around, hpieces, hname, -, -, heq⟩ := h.exists_folder
  obtain ⟨-, hlast⟩ := List.append_inj' heq rfl
  cases hlast
  exact Path.extension?_eq hpieces hname

theorem get?_of_mem_entries {entry : Location × Content} (h : entry ∈ store.entries) :
    store.get? entry.1 = some entry.2 := by
  have hne := (store.rooted entry h).1
  rw [get?, contentAt, if_neg hne, Option.map_eq_some_iff]
  cases hfind : store.entries.find? (·.1 = entry.1) with
  | none => simpa using List.find?_eq_none.1 hfind entry h
  | some found =>
    have hat : found.1 = entry.1 := by simpa using List.find?_some hfind
    have hmem := List.mem_of_find?_eq_some hfind
    exact ⟨found, rfl, by rw [List.inj_on_of_nodup_map store.distinct hmem h hat]⟩

/-- The paths that are listed below a folder name the files that they stand for. -/
theorem names_pathBelow {entry : Location × Content} (hmem : entry ∈ store.entries)
    (hlocate : store.locate root = .ok folder) (hfolder : store.get? folder = some .folder)
    (h : pathBelow root folder entry = some path) :
    store.Names path entry.1 ∧ ∃ bytes, store.get? entry.1 = some (.file bytes) := by
  obtain ⟨at_, content⟩ := entry
  have hat := get?_of_mem_entries hmem
  cases content with
  | folder => cases h
  | file bytes =>
    simp only [pathBelow] at h
    split_ifs at h with hprefix
    cases h
    obtain ⟨names, rfl⟩ := List.isPrefixOf_iff_prefix.1 hprefix
    have hne : names ≠ [] := by
      rintro rfl
      rw [List.append_nil] at hat
      cases hat.symm.trans hfolder
    rw [List.drop_left]
    exact ⟨names_foldl_join hne hlocate hat, bytes, hat⟩

theorem filesBelow_of_file {bytes : ByteArray} (h : store.content root = .ok (.file bytes)) :
    store.filesBelow root = .ok [root] := by
  obtain ⟨location, hlocate, hat⟩ := content_eq_ok_iff.1 h
  rw [filesBelow, hlocate]
  simp only [bind, Except.bind, hat]
  rfl

theorem filesBelow_of_folder (hlocate : store.locate root = .ok folder)
    (hfolder : store.get? folder = some .folder) :
    store.filesBelow root = .ok (store.entries.filterMap (pathBelow root folder)) := by
  rw [filesBelow, hlocate]
  simp only [bind, Except.bind, hfolder]
  rfl

/-- The paths that are listed name files, each a different one. -/
theorem filesBelow_spec {content : Content} (h : store.content root = .ok content) :
    ∃ files, store.filesBelow root = .ok files ∧
      (∀ path ∈ files, ∃ location bytes,
        store.Names path location ∧ store.get? location = some (.file bytes)) ∧
      files.Pairwise fun path other =>
        ∀ location, store.Names path location → ¬store.Names other location := by
  cases content with
  | file bytes =>
    refine ⟨_, filesBelow_of_file h, fun path hpath => ?_, List.pairwise_singleton _ _⟩
    obtain ⟨location, hnames, hfile⟩ := names_of_file h
    exact List.mem_singleton.1 hpath ▸ ⟨location, bytes, hnames, hfile⟩
  | folder =>
    obtain ⟨folder, hlocate, hfolder⟩ := content_eq_ok_iff.1 h
    refine ⟨_, filesBelow_of_folder hlocate hfolder, fun path hpath => ?_, ?_⟩
    · obtain ⟨entry, hmem, hlisted⟩ := List.mem_filterMap.1 hpath
      obtain ⟨hnames, bytes, hfile⟩ := names_pathBelow hmem hlocate hfolder hlisted
      exact ⟨entry.1, bytes, hnames, hfile⟩
    · have hdistinct : store.entries.Pairwise fun entry other => entry.1 ≠ other.1 :=
        List.pairwise_map.1 store.distinct
      refine List.pairwise_filterMap.2 (hdistinct.imp_of_mem ?_)
      intro entry other hentry hother hne path hpath path' hpath' location hnames hnames'
      have heq := hnames.unique (names_pathBelow hentry hlocate hfolder hpath).1
      have heq' := hnames'.unique (names_pathBelow hother hlocate hfolder hpath').1
      exact hne (heq.symm.trans heq')

end CTree.Store

namespace CTree.Fixture
open CTree.Store

variable {store : Store} {fixture : Fixture} {root path : Path} {input expected location : Location}

/-! ## An input and its document -/

/-- The location of an input, and that of its expected document. -/
def Beside (input expected : Location) : Prop :=
  ∃ folder stem, input = folder ++ [String.ofList (stem ++ ".in".toList)] ∧
    expected = folder ++ [String.ofList (stem ++ ".out".toList)]

/-- A document belongs to one input only. -/
theorem Beside.input_eq {other : Location} (h : Beside input expected) (h' : Beside other expected) :
    input = other := by
  obtain ⟨folder, stem, rfl, rfl⟩ := h
  obtain ⟨around, other, rfl, heq⟩ := h'
  obtain ⟨rfl, hname⟩ := List.append_inj' heq rfl
  rw [List.append_cancel_right (String.ofList_inj.1 (List.singleton_inj.1 hname))]

/-- The fixture is that of the input at the location. -/
structure IsAt (fixture : Fixture) (store : Store) (location : Location) : Prop where
  ofInput : fixture = .ofInput fixture.input
  extension : fixture.input.extension? = some inputExtension
  names : store.Names fixture.input location
  file : ∃ bytes, store.get? location = some (.file bytes)

theorem stem_of_extension {last : String} (h : (splitName last.toList).2.map String.ofList =
    some inputExtension) :
    ∃ stem, splitName last.toList = (stem, some "in".toList) ∧ last.toList = stem ++ ".in".toList := by
  obtain ⟨extension, hsome, hin⟩ := Option.map_eq_some_iff.1 h
  obtain rfl : extension = "in".toList := by
    rw [← String.toList_ofList (l := extension), hin, inputExtension]
  have hsplit : splitName last.toList = ((splitName last.toList).1, some "in".toList) :=
    Prod.ext rfl hsome
  exact ⟨_, hsplit, (eq_of_splitName hsplit).2⟩

theorem IsAt.pieces_expected {front : List (List Char)} {last : String} {stem : List Char}
    (h : fixture.IsAt store location) (hpieces : fixture.input.pieces = front ++ [last.toList])
    (hname : IsName last) (hsplit : splitName last.toList = (stem, some "in".toList)) :
    fixture.expected.pieces =
      front ++ [if stem = ['.'] then ['.', '.'] else stem ++ ".out".toList] := by
  rw [h.ofInput]
  exact Path.pieces_withExtension hpieces hname hsplit (by decide) (by decide)

/-- Where the path of the expected document names an entry, it is the one beside the input. -/
theorem IsAt.beside (h : fixture.IsAt store location)
    (hexpected : store.Names fixture.expected expected) : Beside location expected := by
  obtain ⟨front, last, folder, hpieces, hname, hfollow, -, rfl⟩ := h.names.exists_folder
  obtain ⟨stem, hsplit, hlast⟩ := stem_of_extension (h.names.extension? ▸ h.extension)
  have hnew := h.pieces_expected hpieces hname hsplit
  obtain ⟨front', last', folder', hpieces', hname', hfollow', -, rfl⟩ := hexpected.exists_folder
  obtain ⟨rfl, hdocument⟩ := List.append_inj' (hnew.symm.trans hpieces') rfl
  have horigin : store.origin fixture.expected = store.origin fixture.input := by
    rw [origin, origin, Path.isAbsolute_eq hnew, Path.isAbsolute_eq hpieces]
  have hfolder : folder' = folder := by
    rw [horigin, hfollow] at hfollow'
    cases hfollow'
    rfl
  have hnotup : stem ≠ ['.'] := by
    rintro rfl
    exact hname'.not_step (.inr (.inr (List.singleton_inj.1 hdocument).symm))
  rw [if_neg hnotup] at hdocument
  refine ⟨folder, stem, ?_, ?_⟩
  · rw [← hlast, String.ofList_toList]
  · rw [hfolder, ← String.ofList_toList (s := last'), ← List.singleton_inj.1 hdocument]

/-! ## Discovery -/

/-- The fixtures of an existing root have different inputs. -/
theorem discover_spec {content : Content} (h : store.content root = .ok content) :
    ∃ fixtures, discover store root = .ok fixtures ∧
      (∀ fixture ∈ fixtures, ∃ location, fixture.IsAt store location) ∧
      fixtures.Pairwise fun fixture other =>
        ∀ location, fixture.IsAt store location → ¬other.IsAt store location := by
  obtain ⟨files, hfiles, hnamed, happart⟩ := filesBelow_spec h
  rw [discover, hfiles]
  refine ⟨_, rfl, fun fixture hmem => ?_, ?_⟩
  · obtain ⟨path, hpath, rfl⟩ := List.mem_map.1 hmem
    obtain ⟨hpath, hextension⟩ := List.mem_filter.1 (List.mem_mergeSort.1 hpath)
    obtain ⟨location, bytes, hnames, hfile⟩ := hnamed path hpath
    exact ⟨location, rfl, of_decide_eq_true hextension, hnames, bytes, hfile⟩
  · refine List.pairwise_map.2 (List.Pairwise.imp (R := fun path other =>
      ∀ location, store.Names path location → ¬store.Names other location) ?_ ?_)
    · intro path other hne location hat hat'
      exact hne location hat.names hat'.names
    · refine (List.Perm.pairwise_iff ?_ (List.mergeSort_perm _ _)).2 (happart.filter _)
      exact fun hne location hnames hnames' => hne location hnames' hnames

/-- A path to a document is not that of an input. -/
theorem Beside.extension?_ne (h : Beside input expected) (hnames : store.Names path expected) :
    path.extension? ≠ some inputExtension := by
  obtain ⟨folder, stem, -, rfl⟩ := h
  rw [hnames.extension?]
  intro hextension
  obtain ⟨other, -, hlast⟩ := stem_of_extension hextension
  have := congrArg List.getLast? hlast
  simp at this

theorem exists_content_of_discover {fixtures : List Fixture}
    (h : discover store root = .ok fixtures) : ∃ content, store.content root = .ok content := by
  rw [discover, filesBelow] at h
  rw [content]
  cases hlocate : store.locate root with
  | error e => rw [hlocate] at h; cases h
  | ok location =>
    rw [hlocate] at h
    cases hat : store.get? location with
    | none => simp [bind, Except.bind, hat, throw, throwThe, MonadExceptOf.throw] at h
    | some content => exact ⟨content, by simp [bind, Except.bind, hat]⟩

/-- A document that is put beside an input leads to no other fixtures. -/
theorem discover_put {fixtures : List Fixture} {bytes : ByteArray}
    (hfound : discover store root = .ok fixtures) (hbeside : Beside input expected)
    (htakes : store.Takes expected) :
    discover (store.put expected (.file bytes) htakes) root = .ok fixtures := by
  have hsame := SameFolders.put store expected bytes htakes
  obtain ⟨content, hroot⟩ := exists_content_of_discover hfound
  rw [← hfound]
  cases content with
  | file old =>
    obtain ⟨location, hnames, hfile⟩ := names_of_file hroot
    have hafter : ∃ new, (store.put expected (.file bytes) htakes).content root =
        .ok (.file new) := by
      rw [(hnames.of_sameFolders hsame).content_eq, get?_put]
      split_ifs <;> simp [hfile]
    obtain ⟨new, hafter⟩ := hafter
    rw [discover, discover, filesBelow_of_file hroot, filesBelow_of_file hafter]
  | folder =>
    obtain ⟨folder, hlocate, hfolder⟩ := content_eq_ok_iff.1 hroot
    have hafter := hsame.locate hfolder hlocate
    have hfolder' := (hsame.folder folder).1 hfolder
    have hentries : (store.put expected (.file bytes) htakes).entries =
        store.entries.filter (·.1 ≠ expected) ++ [(expected, .file bytes)] := rfl
    -- Whatever is listed for the location of the document is not an input.
    have hno (entry : Location × Content) (hat : entry.1 = expected) :
        (pathBelow root folder entry).filter (·.extension? = some inputExtension) = none := by
      obtain ⟨_, old | _⟩ := entry
      · subst hat
        rw [Option.filter_eq_none_iff]
        intro path hlisted
        have hmem : (_, .file bytes) ∈ (store.put _ (.file bytes) htakes).entries :=
          hentries ▸ List.mem_concat_self
        have hnames := (names_pathBelow hmem hafter hfolder' hlisted).1
        simpa using hbeside.extension?_ne hnames
      · rfl
    have hinputs : ((store.put expected (.file bytes) htakes).entries.filterMap
          (pathBelow root folder)).filter (·.extension? = some inputExtension) =
        (store.entries.filterMap (pathBelow root folder)).filter
          (·.extension? = some inputExtension) := by
      have hlast : [(expected, Content.file bytes)].filterMap (fun entry =>
          (pathBelow root folder entry).filter (·.extension? = some inputExtension)) = [] := by
        simp [hno (expected, _) rfl]
      rw [hentries, List.filter_filterMap, List.filter_filterMap, List.filterMap_append, hlast,
        List.append_nil, List.filterMap_filter]
      refine List.filterMap_congr fun entry _ => ?_
      by_cases hat : entry.1 = expected
      · simp [hat, hno entry hat]
      · simp [hat]
    rw [discover, discover, filesBelow_of_folder hlocate hfolder,
      filesBelow_of_folder hafter hfolder']
    simp only [hinputs]

end CTree.Fixture
