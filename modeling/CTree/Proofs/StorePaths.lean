import CTree.Store.Replace
import Mathlib.Tactic

/-!
# Where paths lead

A path names an entry of a folder if its last piece is a name and the pieces before
it lead to a folder. Every path to a file is of this kind. Which folder it is depends
on the folders of the store and not on its files, so stores with the same folders
agree about all names.
-/
namespace CTree.Store

/-! ## Pieces of a text -/

theorem splitOn_ne_nil (c : Char) (s : List Char) : splitOn c s ≠ [] := by
  cases s with
  | nil => simp [splitOn]
  | cons a s => rw [splitOn]; split_ifs <;> [simp; (split <;> simp)]

theorem splitOn_append (c : Char) (s t : List Char) :
    splitOn c (s ++ c :: t) = splitOn c s ++ splitOn c t := by
  induction s with
  | nil => simp [splitOn]
  | cons a s ih =>
    by_cases ha : a = c
    · simp [splitOn, ha, ih]
    · obtain ⟨piece, pieces, hs⟩ := List.exists_cons_of_ne_nil (splitOn_ne_nil c s)
      simp [splitOn, ha, ih, hs]

theorem splitOn_eq_singleton {c : Char} {s : List Char} (h : c ∉ s) : splitOn c s = [s] := by
  induction s with
  | nil => rfl
  | cons a s ih =>
    obtain ⟨hne, hs⟩ := not_or.1 (List.mem_cons.not.1 h)
    simp [splitOn, Ne.symm hne, ih hs]

/-- A text without a separator is one piece, any other one is cut at its last one. -/
theorem splitOn_cases (c : Char) (s : List Char) :
    c ∉ s ∧ splitOn c s = [s] ∨
      ∃ outer last, s = outer ++ c :: last ∧ c ∉ last ∧
        splitOn c s = splitOn c outer ++ [last] := by
  induction s with
  | nil => exact .inl ⟨List.not_mem_nil, rfl⟩
  | cons a s ih =>
    rcases ih with ⟨hs, -⟩ | ⟨outer, last, rfl, hlast, -⟩
    · by_cases ha : a = c
      · refine .inr ⟨[], s, by rw [ha, List.nil_append], hs, ?_⟩
        rw [ha, ← splitOn_eq_singleton hs]
        exact splitOn_append c [] s
      · have hall : c ∉ a :: s := by simp [Ne.symm ha, hs]
        exact .inl ⟨hall, splitOn_eq_singleton hall⟩
    · refine .inr ⟨a :: outer, last, by simp, hlast, ?_⟩
      rw [← splitOn_eq_singleton hlast, ← splitOn_append, List.cons_append]

theorem not_mem_of_mem_splitOn {c : Char} {s piece : List Char} (h : piece ∈ splitOn c s) :
    c ∉ piece := by
  rcases splitOn_cases c s with ⟨hs, heq⟩ | ⟨outer, last, heq, hlast, hcut⟩
  · rw [heq, List.mem_singleton] at h
    exact h ▸ hs
  · rw [hcut, List.mem_append, List.mem_singleton] at h
    rcases h with h | rfl
    · exact not_mem_of_mem_splitOn h
    · exact hlast
termination_by s.length
decreasing_by simp [heq]

theorem not_mem_of_mem_pieces {path : Path} {piece : List Char} (h : piece ∈ path.pieces) :
    '/' ∉ piece := not_mem_of_mem_splitOn h

theorem isName_ofList {piece : List Char}
    (h : ¬(piece = [] ∨ piece = ['.'] ∨ piece = ['.', '.'])) (hslash : '/' ∉ piece) :
    IsName (String.ofList piece) := by
  simp only [not_or] at h
  refine ⟨by simpa using hslash, ?_⟩
  simpa [← String.toList_inj] using h

theorem IsName.not_step {name : String} (h : IsName name) :
    ¬(name.toList = [] ∨ name.toList = ['.'] ∨ name.toList = ['.', '.']) := by
  obtain ⟨-, hne, hhere, hup⟩ := h
  rintro (h | h | h)
  · exact hne (String.toList_inj.1 h)
  · exact hhere (String.toList_inj.1 h)
  · exact hup (String.toList_inj.1 h)

/-! ## Entries and the folders around them -/

variable {s t store : Store} {path : Path} {location folder : Location}

theorem mem_entries_of_get? {content : Content} (h : store.get? location = some content)
    (hne : location ≠ []) : (location, content) ∈ store.entries := by
  rw [get?, contentAt, if_neg hne, Option.map_eq_some_iff] at h
  obtain ⟨entry, hfind, rfl⟩ := h
  have hat : entry.1 = location := by simpa using List.find?_some hfind
  exact hat ▸ List.mem_of_find?_eq_some hfind

theorem get?_parent {content : Content} (h : store.get? location = some content) :
    store.get? location.dropLast = some .folder := by
  by_cases hne : location = []
  · rw [hne]
    rfl
  · exact (store.rooted _ (mem_entries_of_get? h hne)).2

theorem get?_folder_of_append {content : Content} {names : List String} (hne : names ≠ [])
    (h : store.get? (location ++ names) = some content) :
    store.get? location = some .folder := by
  induction names using List.reverseRecOn generalizing content with
  | nil => exact absurd rfl hne
  | append_singleton names name ih =>
    have hparent := get?_parent h
    rw [← List.append_assoc, List.dropLast_concat] at hparent
    by_cases hnames : names = []
    · simpa [hnames] using hparent
    · exact ih hnames hparent

theorem isName_of_get? {content : Content} (h : store.get? location = some content) :
    ∀ name ∈ location, IsName name := by
  by_cases hne : location = []
  · simp [hne]
  · exact store.named _ (mem_entries_of_get? h hne)

/-! ## Following pieces -/

theorem follow_append (store : Store) (location : Location) (front back : List (List Char)) :
    store.follow location (front ++ back) =
      store.follow location front >>= (store.follow · back) := by
  induction front generalizing location with
  | nil => rfl
  | cons piece front ih =>
    simp only [List.cons_append, follow]
    split <;> [rfl; rfl; skip]
    split_ifs <;> [exact ih _; exact ih _; skip]
    split <;> [rfl; exact ih _]

/-- The last step to a name. -/
theorem follow_name {name : String} (hname : IsName name)
    (hfolder : store.get? folder = some .folder) :
    store.follow folder [name.toList] =
      if (store.get? (folder ++ [name])).isSome then .ok (folder ++ [name])
      else .error .notFound := by
  have hsteps := hname.not_step
  simp only [not_or] at hsteps
  simp only [follow, hfolder, hsteps, or_self, if_false, String.ofList_toList]
  cases store.get? (folder ++ [name]) <;> rfl

/-- A step that does not end at a name ends at a folder. -/
theorem follow_step {piece : List Char} (hstep : piece = [] ∨ piece = ['.'] ∨ piece = ['.', '.'])
    (h : store.follow folder [piece] = .ok location) : store.get? location = some .folder := by
  rw [follow] at h
  split at h <;> [cases h; cases h; skip]
  next hfolder =>
  split_ifs at h with hstay hup
  · cases h
    exact hfolder
  · cases h
    exact get?_parent hfolder
  · simp_all

/-- The two stores have the same folders, and their paths begin at the same places. -/
structure SameFolders (s t : Store) : Prop where
  current : s.current = t.current
  folder : ∀ location, s.get? location = some .folder ↔ t.get? location = some .folder

namespace SameFolders

theorem refl (store : Store) : SameFolders store store := ⟨rfl, fun _ => .rfl⟩

theorem symm (h : SameFolders s t) : SameFolders t s :=
  ⟨h.current.symm, fun location => (h.folder location).symm⟩

theorem trans {u : Store} (h : SameFolders s t) (h' : SameFolders t u) : SameFolders s u :=
  ⟨h.current.trans h'.current, fun location => (h.folder location).trans (h'.folder location)⟩

theorem put (store : Store) (location : Location) (bytes : ByteArray) (h : store.Takes location) :
    SameFolders store (store.put location (.file bytes) h) where
  current := rfl
  folder other := by
    rw [get?_put]
    split_ifs with heq
    · simp [heq, h.free]
    · rfl

/-- Whatever leads to a folder leads there in the other store. -/
theorem follow (h : SameFolders s t) (hfolder : s.get? folder = some .folder)
    {pieces : List (List Char)} (hfollow : s.follow location pieces = .ok folder) :
    t.follow location pieces = .ok folder := by
  induction pieces generalizing location with
  | nil => exact hfollow
  | cons piece pieces ih =>
    rw [Store.follow] at hfollow ⊢
    split at hfollow <;> [cases hfollow; cases hfollow; skip]
    next hhere =>
    rw [(h.folder location).1 hhere]
    dsimp only
    split_ifs at hfollow ⊢ with hstay hup
    · exact ih hfollow
    · exact ih hfollow
    · dsimp only at hfollow ⊢
      split at hfollow <;> [cases hfollow; skip]
      -- What is behind the step is a folder: there is a step from it, or the way ends there.
      have hnext : s.get? (location ++ [String.ofList piece]) = some .folder := by
        cases pieces with
        | nil => cases hfollow; exact hfolder
        | cons =>
          rw [Store.follow] at hfollow
          split at hfollow <;> [cases hfollow; cases hfollow; assumption]
      rw [(h.folder _).1 hnext]
      exact ih hfollow

theorem origin (h : SameFolders s t) (path : Path) : t.origin path = s.origin path := by
  rw [Store.origin, Store.origin, h.current]

theorem locate (h : SameFolders s t) (hfolder : s.get? folder = some .folder)
    (hlocate : s.locate path = .ok folder) : t.locate path = .ok folder := by
  rw [Store.locate] at hlocate ⊢
  split_ifs at hlocate ⊢
  rw [h.origin]
  exact h.follow hfolder hlocate

end SameFolders

/-! ## Names -/

/-- The path spells the location of an entry of a folder, whether or not something is
there. -/
structure Names (store : Store) (path : Path) (location : Location) : Prop where
  target : store.target path = .ok location
  parent : store.get? location.dropLast = some .folder

theorem target_eq_ok_iff : store.target path = .ok location ↔
    ∃ front last folder, path.pieces = front ++ [last.toList] ∧ IsName last ∧
      store.follow (store.origin path) front = .ok folder ∧ location = folder ++ [last] := by
  constructor
  · intro h
    rw [target] at h
    split at h <;> [cases h; skip]
    next last hlast =>
    split_ifs at h with hstep
    obtain ⟨folder, hfollow, h⟩ : ∃ folder,
        store.follow (store.origin path) path.pieces.dropLast = .ok folder ∧
          folder ++ [String.ofList last] = location := by
      cases hfollow : store.follow (store.origin path) path.pieces.dropLast with
      | error e => rw [hfollow] at h; cases h
      | ok folder => rw [hfollow] at h; cases h; exact ⟨folder, rfl, rfl⟩
    have hpieces := List.dropLast_append_getLast? last hlast
    have hslash : '/' ∉ last := not_mem_of_mem_pieces (List.mem_of_getLast? hlast)
    exact ⟨_, _, folder, by rw [String.toList_ofList, hpieces], isName_ofList hstep hslash,
      hfollow, h.symm⟩
  · rintro ⟨front, last, folder, hpieces, hlast, hfollow, rfl⟩
    rw [target, hpieces, List.getLast?_concat, List.dropLast_concat, hfollow]
    simp only [if_neg hlast.not_step, String.ofList_toList]
    rfl

namespace Names

theorem exists_folder (h : store.Names path location) :
    ∃ front last folder, path.pieces = front ++ [last.toList] ∧ IsName last ∧
      store.follow (store.origin path) front = .ok folder ∧
      store.get? folder = some .folder ∧ location = folder ++ [last] := by
  obtain ⟨front, last, folder, hpieces, hlast, hfollow, rfl⟩ := target_eq_ok_iff.1 h.target
  exact ⟨front, last, folder, hpieces, hlast, hfollow, by simpa using h.parent, rfl⟩

theorem of_follow {front : List (List Char)} {last : String}
    (hpieces : path.pieces = front ++ [last.toList]) (hlast : IsName last)
    (hfollow : store.follow (store.origin path) front = .ok folder)
    (hfolder : store.get? folder = some .folder) : store.Names path (folder ++ [last]) :=
  ⟨target_eq_ok_iff.2 ⟨front, last, folder, hpieces, hlast, hfollow, rfl⟩, by simpa⟩

theorem ne_nil (h : store.Names path location) : location ≠ [] := by
  obtain ⟨-, -, -, -, -, -, -, rfl⟩ := h.exists_folder
  simp

theorem unique {other : Location} (h : store.Names path location)
    (h' : store.Names path other) : location = other := by
  have := h.target.symm.trans h'.target
  cases this
  rfl

/-- Stores with the same folders have the same names. -/
theorem of_sameFolders (hsame : SameFolders s t) (h : s.Names path location) :
    t.Names path location := by
  obtain ⟨front, last, folder, hpieces, hlast, hfollow, hfolder, rfl⟩ := h.exists_folder
  rw [← hsame.origin] at hfollow
  exact of_follow hpieces hlast (hsame.follow hfolder hfollow) ((hsame.folder folder).1 hfolder)

theorem takes_iff (h : store.Names path location) :
    store.Takes location ↔ store.get? location ≠ some .folder := by
  refine ⟨Takes.free, fun hfree => ⟨h.ne_nil, ?_, h.parent, hfree⟩⟩
  obtain ⟨-, last, folder, -, hlast, -, hfolder, rfl⟩ := h.exists_folder
  intro name hname
  rcases List.mem_append.1 hname with hname | hname
  · exact isName_of_get? hfolder name hname
  · exact List.mem_singleton.1 hname ▸ hlast

theorem locate_eq (h : store.Names path location) :
    store.locate path =
      if (store.get? location).isSome then .ok location else .error .notFound := by
  obtain ⟨front, last, folder, hpieces, hlast, hfollow, hfolder, rfl⟩ := h.exists_folder
  have htext : path.text ≠ "" := by
    intro hempty
    rw [Path.pieces, hempty] at hpieces
    have := hlast.not_step
    cases front <;> simp_all [splitOn]
  rw [locate, if_neg htext, hpieces, follow_append, hfollow]
  exact follow_name hlast hfolder

theorem content_eq (h : store.Names path location) :
    store.content path =
      match store.get? location with
      | some content => .ok content
      | none => .error .notFound := by
  rw [content, h.locate_eq]
  cases hat : store.get? location <;> simp [hat, bind, Except.bind]

theorem content_eq_ok_iff {content : Content} (h : store.Names path location) :
    store.content path = .ok content ↔ store.get? location = some content := by
  rw [h.content_eq]
  cases store.get? location <;> simp

end Names

theorem content_eq_ok_iff {content : Content} : store.content path = .ok content ↔
    ∃ location, store.locate path = .ok location ∧ store.get? location = some content := by
  rw [Store.content]
  cases store.locate path with
  | error e => simp [bind, Except.bind]
  | ok location => cases hat : store.get? location <;> simp [bind, Except.bind, hat]

/-- A path to a file names it. -/
theorem names_of_file {bytes : ByteArray} (h : store.content path = .ok (.file bytes)) :
    ∃ location, store.Names path location ∧ store.get? location = some (.file bytes) := by
  obtain ⟨location, hlocate, hfile⟩ := content_eq_ok_iff.1 h
  have hnofolder : store.get? location ≠ some .folder := by simp [hfile]
  obtain ⟨front, last, hpieces⟩ : ∃ front last, path.pieces = front ++ [last] :=
    (List.eq_nil_or_concat' path.pieces).resolve_left (splitOn_ne_nil _ _)
  rw [locate, hpieces, follow_append] at hlocate
  split_ifs at hlocate
  cases hfollow : store.follow (store.origin path) front with
  | error e => rw [hfollow] at hlocate; cases hlocate
  | ok folder =>
    rw [hfollow] at hlocate
    change store.follow folder [last] = .ok location at hlocate
    have hstep : ¬(last = [] ∨ last = ['.'] ∨ last = ['.', '.']) := fun hstep =>
      hnofolder (follow_step hstep hlocate)
    have hslash : '/' ∉ last := not_mem_of_mem_pieces (hpieces ▸ List.mem_concat_self)
    have hname := isName_ofList hstep hslash
    have hfolder : store.get? folder = some .folder := by
      rw [follow] at hlocate
      split at hlocate <;> [cases hlocate; cases hlocate; assumption]
    have hlast : (String.ofList last).toList = last := String.toList_ofList
    rw [← hlast, follow_name hname hfolder] at hlocate
    split_ifs at hlocate
    cases hlocate
    exact ⟨_, .of_follow (hlast.symm ▸ hpieces) hname hfollow hfolder, hfile⟩

/-! ## Joined paths -/

/-- A text is what leads up to its last piece, and that piece. -/
theorem exists_lead {front : List (List Char)} {last : List Char}
    (h : path.pieces = front ++ [last]) :
    ∃ lead, path.text.toList = lead ++ last ∧
      ∀ s, '/' ∉ s → splitOn '/' (lead ++ s) = front ++ [s] := by
  rcases splitOn_cases '/' path.text.toList with ⟨-, hcut⟩ | ⟨outer, piece, htext, -, hcut⟩
  · rw [Path.pieces, hcut] at h
    obtain ⟨rfl, hlast⟩ := List.append_inj' ((List.nil_append _).trans h) rfl
    cases hlast
    exact ⟨[], rfl, fun s hs => splitOn_eq_singleton hs⟩
  · rw [Path.pieces, hcut] at h
    obtain ⟨rfl, hlast⟩ := List.append_inj' h rfl
    cases hlast
    refine ⟨outer ++ ['/'], by simp [htext], fun s hs => ?_⟩
    rw [List.append_assoc, List.singleton_append, splitOn_append, splitOn_eq_singleton hs]

/-- Joining adds one piece, in place of an empty last one. -/
theorem pieces_join {root : Path} {name : String} (hroot : root.text ≠ "") (hslash : '/' ∉ name.toList) :
    ∃ front, (root.join name).pieces = front ++ [name.toList] ∧
      (root.pieces = front ∨ root.pieces = front ++ [[]]) := by
  by_cases hend : root.text.toList.getLast? = some '/'
  · obtain ⟨front, last, hpieces⟩ : ∃ front last, root.pieces = front ++ [last] :=
      (List.eq_nil_or_concat' root.pieces).resolve_left (splitOn_ne_nil _ _)
    obtain ⟨lead, hlead, hcut⟩ := exists_lead hpieces
    have hlast : last = [] := by
      by_contra hne
      rw [hlead, List.getLast?_append_of_ne_nil _ hne] at hend
      exact not_mem_of_mem_pieces (hpieces ▸ List.mem_concat_self) (List.mem_of_getLast? hend)
    subst hlast
    refine ⟨front, ?_, .inr hpieces⟩
    rw [Path.join, if_neg hroot, if_pos hend, Path.pieces, String.toList_append, hlead,
      List.append_nil]
    exact hcut name.toList hslash
  · have htoList : (root.join name).text.toList = root.text.toList ++ '/' :: name.toList := by
      simp [Path.join, if_neg hroot, if_neg hend]
    refine ⟨root.pieces, ?_, .inl rfl⟩
    rw [Path.pieces, htoList, splitOn_append, splitOn_eq_singleton hslash, Path.pieces]

theorem isAbsolute_join {root : Path} (hroot : root.text ≠ "") (name : String) :
    (root.join name).isAbsolute = root.isAbsolute := by
  have hne : root.text.toList ≠ [] := by simpa using hroot
  rw [Path.isAbsolute, Path.isAbsolute, Path.join, if_neg hroot]
  split_ifs
  · rw [String.toList_append, List.head?_append_of_ne_nil _ hne]
  · rw [String.append_assoc, String.toList_append, List.head?_append_of_ne_nil _ hne]

/-- A name below a folder is named by the joined path. -/
theorem names_join {root : Path} {name : String} (hlocate : store.locate root = .ok folder)
    (hfolder : store.get? folder = some .folder) (hname : IsName name) :
    store.Names (root.join name) (folder ++ [name]) := by
  rw [locate] at hlocate
  split_ifs at hlocate with htext
  obtain ⟨front, hpieces, hroot⟩ := pieces_join htext hname.1
  refine .of_follow hpieces hname ?_ hfolder
  rw [origin, isAbsolute_join htext, ← origin]
  rcases hroot with hroot | hroot <;> rw [hroot] at hlocate
  · exact hlocate
  · -- The empty piece behind a separator stays in the folder that it is in.
    rw [follow_append] at hlocate
    cases hfollow : store.follow (store.origin root) front with
    | error e => rw [hfollow] at hlocate; cases hlocate
    | ok around =>
      rw [hfollow] at hlocate
      change store.follow around [[]] = .ok folder at hlocate
      rw [follow] at hlocate
      split at hlocate <;> [cases hlocate; cases hlocate; skip]
      simpa [follow] using hlocate

/-- So is one further below, if there is something. -/
theorem names_foldl_join {root : Path} {content : Content} {names : List String}
    (hne : names ≠ []) (hlocate : store.locate root = .ok folder)
    (h : store.get? (folder ++ names) = some content) :
    store.Names (names.foldl Path.join root) (folder ++ names) := by
  induction names generalizing root folder with
  | nil => exact absurd rfl hne
  | cons name names ih =>
    have hfolder := get?_folder_of_append hne h
    have hname : IsName name := isName_of_get? h name (by simp)
    have hjoin := names_join hlocate hfolder hname
    by_cases hnames : names = []
    · simpa [hnames] using hjoin
    · rw [List.append_cons] at h ⊢
      refine ih hnames ?_ h
      rw [hjoin.locate_eq, get?_folder_of_append hnames h]
      rfl

end CTree.Store
