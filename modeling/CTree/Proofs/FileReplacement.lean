import CTree.Fixture.Outcome
import CTree.Proofs.StorePaths

/-!
# Files are replaced whole or not at all

Of the steps that replace a file only the last one touches it. When one of them is
refused the draft is gone again, and the store is the one from before; when none is,
the store differs at the location of the file and nowhere else.
-/
namespace CTree.Store

variable {store after : Store} {path : Path} {location draft : Location} {bytes : ByteArray}

/-! ## Putting a file and taking it away -/

theorem filter_entries_of_get?_eq_none (hne : location ≠ []) (h : store.get? location = none) :
    store.entries.filter (·.1 ≠ location) = store.entries := by
  refine List.filter_eq_self.2 fun entry hentry => ?_
  rw [get?, contentAt, if_neg hne, Option.map_eq_none_iff, List.find?_eq_none] at h
  simpa using h entry hentry

theorem removeFile_put (h : store.Takes location) (hnone : store.get? location = none) :
    (store.put location (.file bytes) h).removeFile location = store := by
  have hfile : (store.put location (.file bytes) h).get? location ≠ some .folder := by simp
  rw [removeFile, dif_pos hfile]
  refine Store.ext ?_ rfl
  simp only [erase, put, replace, List.filter_append, List.filter_filter, Bool.and_self]
  rw [filter_entries_of_get?_eq_none h.ne_nil hnone]
  simp

theorem put_put {first second : Content} (h : store.Takes location)
    (h' : (store.put location first h).Takes location) :
    (store.put location first h).put location second h' = store.put location second h := by
  refine Store.ext ?_ rfl
  simp [put, replace, List.filter_append, List.filter_filter]

theorem Takes.of_sameFolders {s t : Store} (hsame : SameFolders s t) (h : s.Takes location) :
    t.Takes location :=
  ⟨h.ne_nil, h.isName, (hsame.folder _).1 h.parent, fun hf => h.free ((hsame.folder _).2 hf)⟩

theorem putFile_of_takes (h : store.Takes location) :
    store.putFile location bytes = .ok (store.put location (.file bytes) h) := dif_pos h

/-! ## Drafts -/

theorem length_le_longest {content : Content} (h : store.get? location = some content)
    {name : String} (hname : name ∈ location) : name.length ≤ unusedName.longest store := by
  have hne : location ≠ [] := List.ne_nil_of_mem hname
  refine List.le_max?_getD_of_mem (List.mem_map_of_mem ?_)
  exact List.mem_flatMap.2 ⟨_, mem_entries_of_get? h hne, hname⟩

theorem longest_lt_length_unusedName (store : Store) :
    unusedName.longest store < store.unusedName.length := by
  rw [unusedName, String.length_ofList, List.length_append, List.length_replicate]
  simp only [List.length_cons]
  omega

theorem get?_unusedName (store : Store) (folder : Location) :
    store.get? (folder ++ [store.unusedName]) = none := by
  rw [Option.eq_none_iff_forall_ne_some]
  intro content h
  have := length_le_longest h List.mem_concat_self
  have := longest_lt_length_unusedName store
  omega

theorem isName_unusedName (store : Store) : IsName store.unusedName := by
  have hlist : store.unusedName.toList =
      ['.', 't', 'm', 'p'] ++ List.replicate (unusedName.longest store) 'x' := by
    simp [unusedName]
  rw [← String.ofList_toList (s := store.unusedName), hlist]
  refine isName_ofList ?_ ?_ <;> simp

/-- The draft of a file is made beside it. -/
theorem Names.folderAround (h : store.Names path location) :
    store.folderAround path = .ok location.dropLast := by
  obtain ⟨front, last, folder, hpieces, hlast, hfollow, -, rfl⟩ := h.exists_folder
  have hstop := hlast.not_step
  simp only [not_or] at hstop
  rw [Store.folderAround, hpieces, List.reverse_concat, List.dropWhile_cons_of_neg (by simp [hstop])]
  simp [hfollow]

/-- A draft is an empty file, at a location where nothing was. -/
theorem makeDraft_eq_ok {drafted : Store} (h : store.makeDraft path = .ok (draft, drafted)) :
    ∃ h', store.get? draft = none ∧ drafted = store.put draft (.file .empty) h' := by
  rw [makeDraft] at h
  cases hfolder : store.folderAround path with
  | error e => rw [hfolder] at h; cases h
  | ok folder =>
    rw [hfolder] at h
    simp only [bind, Except.bind, putFile] at h
    split_ifs at h with htakes
    cases h
    exact ⟨htakes, get?_unusedName store folder, rfl⟩

theorem Names.makeDraft (h : store.Names path location) :
    ∃ made, store.makeDraft path = .ok made := by
  have htakes : store.Takes (location.dropLast ++ [store.unusedName]) := by
    refine ⟨by simp, ?_, by simpa using h.parent, by simp [get?_unusedName]⟩
    intro name hname
    rcases List.mem_append.1 hname with hname | hname
    · exact isName_of_get? h.parent name hname
    · exact List.mem_singleton.1 hname ▸ isName_unusedName store
  rw [Store.makeDraft, h.folderAround]
  simp only [bind, Except.bind, putFile_of_takes htakes]
  exact ⟨_, rfl⟩

/-! ## Replacing -/

/-- Moving a draft takes it away, and leaves a file in the place of the path. -/
theorem moveFile_draft (h : store.Takes draft) (hnone : store.get? draft = none) :
    (store.put draft (.file bytes) h).moveFile draft path =
      (store.put draft (.file bytes) h).target path >>= (store.putFile · bytes) := by
  simp only [moveFile, get?_put, if_true, removeFile_put h hnone]

/-- A file is replaced if its path names it and it is no folder, and else nothing is. -/
theorem replaceFile_cases (store : Store) (path : Path) (bytes : ByteArray) :
    (∃ location, store.Names path location ∧
      ∃ h, store.replaceFile path bytes = (.ok (), store.put location (.file bytes) h)) ∨
    (∃ refusal, store.replaceFile path bytes = (.error refusal, store)) ∧
      ∀ location, store.Names path location → store.get? location = some .folder := by
  cases hmake : store.makeDraft path with
  | error refusal =>
    refine .inr ⟨⟨refusal, by rw [replaceFile, hmake]⟩, fun location hnames => ?_⟩
    obtain ⟨made, hmade⟩ := hnames.makeDraft
    cases hmade.symm.trans hmake
  | ok made =>
    obtain ⟨draft, drafted⟩ := made
    obtain ⟨htakes, hnone, rfl⟩ := makeDraft_eq_ok hmake
    have hsame := SameFolders.put store draft bytes htakes
    have hfill : (store.put draft (.file .empty) htakes).putFile draft bytes =
        .ok (store.put draft (.file bytes) htakes) := by
      rw [putFile_of_takes (htakes.of_sameFolders (.put store draft .empty htakes)), put_put]
    rw [replaceFile, hmake]
    simp only [hfill, moveFile_draft htakes hnone, removeFile_put htakes hnone]
    cases htarget : (store.put draft (.file bytes) htakes).target path with
    | error refusal =>
      refine .inr ⟨⟨refusal, rfl⟩, fun location hnames => ?_⟩
      cases htarget.symm.trans (hnames.of_sameFolders hsame).target
    | ok location =>
      simp only [bind, Except.bind]
      by_cases hfits : store.Takes location
      · refine .inl ⟨location, ?_, hfits, by rw [putFile_of_takes hfits]⟩
        exact Names.of_sameFolders hsame.symm ⟨htarget, (hsame.folder _).1 hfits.parent⟩
      · refine .inr ⟨?_, fun other hnames => ?_⟩
        · rw [putFile, dif_neg hfits]
          split_ifs <;> exact ⟨_, rfl⟩
        · have hother : other = location := by
            cases htarget.symm.trans (hnames.of_sameFolders hsame).target
            rfl
          subst hother
          rw [hnames.takes_iff, not_not] at hfits
          exact hfits

/-- The store after the file of a path was replaced, and nothing else. -/
structure Replaced (store : Store) (path : Path) (text : String) (after : Store) : Prop where
  current : after.current = store.current
  only : ∃ location, store.Names path location ∧ ∀ other,
    after.get? other = if other = location then some (.file text.toUTF8) else store.get? other
  content : after.content path = .ok (.file text.toUTF8)

theorem Names.replaced (hnames : store.Names path location) (text : String)
    (h : store.Takes location) :
    store.Replaced path text (store.put location (.file text.toUTF8) h) where
  current := rfl
  only := ⟨location, hnames, fun other => get?_put store location _ h other⟩
  content := by
    rw [(hnames.of_sameFolders (.put store location _ h)).content_eq, get?_put, if_pos rfl]

/-- The run has failed and left the store as it was, or it has written the text to the
file of the path and has done nothing else. -/
def AllOrNothing (store : Store) (path : Path) (text : Except Error String)
    (run : Except Error Unit × Store) : Prop :=
  (∃ e, run = (.error e, store)) ∨
    ∃ s after, text = .ok s ∧ run = (.ok (), after) ∧ store.Replaced path s after

theorem replaceText_allOrNothing (store : Store) (path : Path) (text : String) :
    store.AllOrNothing path (.ok text) (store.replaceText path text) := by
  rw [replaceText]
  rcases replaceFile_cases store path text.toUTF8 with ⟨location, hnames, h, heq⟩ | ⟨⟨e, heq⟩, -⟩
  · exact .inr ⟨text, _, rfl, by rw [heq]; rfl, hnames.replaced text h⟩
  · exact .inl ⟨.unwritable path, by rw [heq]; rfl⟩

/-- The document of a source file is made from what the file holds at the beginning. -/
theorem readDocument_eq (store : Store) (layout : Json.Layout) (path : Path) :
    store.readDocument layout path = store.readSource path >>= Source.toDocument layout := by
  rw [readDocument, readTree]
  cases store.readSource path <;> rfl

theorem convertFile_allOrNothing (store : Store) (layout : Json.Layout) (input output : Path) :
    store.AllOrNothing output (store.readSource input >>= Source.toDocument layout)
      (store.convertFile layout input output) := by
  rw [← readDocument_eq, convertFile]
  cases store.readDocument layout input with
  | error e => exact .inl ⟨e, rfl⟩
  | ok text => exact replaceText_allOrNothing store output text

/-- Writing a text, converting a file and blessing a fixture either fail with the store
as it was, or yield a store with the whole document in the file that was named, and
with no other change. -/
theorem writing_all_or_nothing (store : Store) (layout : Json.Layout) (input output : Path)
    (fixture : Fixture) (text : String) :
    store.AllOrNothing output (store.readSource input >>= Source.toDocument layout)
      (store.convertFile layout input output) ∧
    store.AllOrNothing fixture.expected
      (store.readSource fixture.input >>= Source.toDocument .pretty) (fixture.blessFile store) ∧
    store.AllOrNothing output (.ok text) (store.replaceText output text) :=
  ⟨convertFile_allOrNothing store layout input output,
    convertFile_allOrNothing store .pretty fixture.input fixture.expected,
    replaceText_allOrNothing store output text⟩

/-- A conversion succeeds where there is a document and a place for it. -/
theorem convertFile_succeeds_iff (layout : Json.Layout) (input output : Path) :
    (store.convertFile layout input output).1 = .ok () ↔
      (∃ text, store.readDocument layout input = .ok text) ∧
        ∃ location, store.Names output location ∧ store.get? location ≠ some .folder := by
  rw [convertFile]
  cases hread : store.readDocument layout input with
  | error e => simp
  | ok text =>
    rcases replaceFile_cases store output text.toUTF8 with
      ⟨location, hnames, h, heq⟩ | ⟨⟨refusal, heq⟩, hfolder⟩
    · simp only [replaceText, heq, Except.mapError, true_iff]
      exact ⟨⟨text, rfl⟩, location, hnames, h.free⟩
    · simp only [replaceText, heq, Except.mapError, reduceCtorEq, false_iff]
      rintro ⟨-, location, hnames, hne⟩
      exact hne (hfolder location hnames)

end CTree.Store
