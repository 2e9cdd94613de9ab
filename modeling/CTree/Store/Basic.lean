import CTree.Store.Path
import CTree.Store.Refusal

/-!
# Stores of files

A store is a finite map from locations to files and folders. A location is the list
of names that lead to it, and `[]` is the root, which is a folder. Every entry lies
in a folder and has a name that a path can spell, and no location has two entries;
all of this is part of the type, and every operation keeps it.

A path leads to a location step by step, from the current folder or from the root,
and every step but the last must lead to a folder.

Regular files and folders are all that a store holds, and nothing but a path or bytes that
are no text is ever refused. There are no symbolic links, which a reading follows while a
replacement puts a file in the place of the link, no permissions, and no folder whose
listing breaks off. What is proved of stores is proved of such stores.
-/
namespace CTree

namespace Store

abbrev Location := List String

/-- What an entry of a folder may be called: a text without a separator that is no
step of another kind. -/
def IsName (name : String) : Prop :=
  '/' ∉ name.toList ∧ name ≠ "" ∧ name ≠ "." ∧ name ≠ ".."

instance : DecidablePred IsName := fun _ => inferInstanceAs (Decidable (_ ∧ _))

inductive Content
  | file (bytes : ByteArray)
  | folder

instance : DecidableEq Content
  | .file a, .file b =>
    match ByteArray.instDecidableEq a b with
    | isTrue h => isTrue (congrArg Content.file h)
    | isFalse h => isFalse fun heq => h (Content.file.inj heq)
  | .folder, .folder => isTrue rfl
  | .file _, .folder => isFalse fun h => by cases h
  | .folder, .file _ => isFalse fun h => by cases h

abbrev Entries := List (Location × Content)

def contentAt (entries : Entries) (location : Location) : Option Content :=
  if location = [] then some .folder
  else (entries.find? (·.1 = location)).map (·.2)

@[simp] theorem contentAt_root (entries : Entries) : contentAt entries [] = some .folder := rfl

/-- The entries with one more, in place of any that had its location. -/
def replace (entries : Entries) (location : Location) (content : Content) : Entries :=
  entries.filter (·.1 ≠ location) ++ [(location, content)]

theorem find?_filter_ne {entries : Entries} {location other : Location} (h : other ≠ location) :
    (entries.filter (·.1 ≠ location)).find? (·.1 = other) = entries.find? (·.1 = other) := by
  induction entries with
  | nil => rfl
  | cons e entries ih =>
    by_cases he : e.1 = location
    · have : e.1 ≠ other := fun ho => h (ho.symm.trans he)
      simp_all
    · by_cases ho : e.1 = other <;> simp_all

theorem contentAt_replace {entries : Entries} {location : Location} (content : Content)
    (h : location ≠ []) (other : Location) :
    contentAt (replace entries location content) other =
      if other = location then some content else contentAt entries other := by
  unfold contentAt replace
  by_cases hr : other = []
  · subst hr
    simp [Ne.symm h]
  · by_cases ho : other = location
    · subst ho
      have hf : (entries.filter (·.1 ≠ other)).find? (·.1 = other) = none :=
        List.find?_eq_none.2 fun e he => by simpa using (List.mem_filter.1 he).2
      simp only [List.find?_append, hf, hr, if_false]
      simp
    · have hn : ¬location = other := fun e => ho e.symm
      have hf : (entries.filter (·.1 ≠ location)).find? (·.1 = other) =
          entries.find? (·.1 = other) := find?_filter_ne ho
      simp only [List.find?_append, hf, hr, ho, if_false]
      simp [hn]

theorem contentAt_filter_ne {entries : Entries} {location other : Location}
    (h : other ≠ location) :
    contentAt (entries.filter (·.1 ≠ location)) other = contentAt entries other := by
  unfold contentAt
  rw [find?_filter_ne h]

end Store

open Store in
@[ext] structure Store where
  entries : Entries
  /-- Where paths begin that do not begin at the root. -/
  current : Location
  distinct : (entries.map (·.1)).Nodup
  rooted : ∀ e ∈ entries, e.1 ≠ [] ∧ contentAt entries e.1.dropLast = some .folder
  named : ∀ e ∈ entries, ∀ name ∈ e.1, IsName name

namespace Store

def empty : Store := ⟨[], [], by simp, by simp, by simp⟩

def get? (store : Store) (location : Location) : Option Content :=
  contentAt store.entries location

/-- Something can be put at the location: it is no folder yet, and inside of one. -/
structure Takes (store : Store) (location : Location) : Prop where
  ne_nil : location ≠ []
  isName : ∀ name ∈ location, IsName name
  parent : store.get? location.dropLast = some .folder
  free : store.get? location ≠ some .folder

instance (store : Store) (location : Location) : Decidable (store.Takes location) :=
  decidable_of_iff (location ≠ [] ∧ (∀ name ∈ location, IsName name) ∧
      store.get? location.dropLast = some .folder ∧ store.get? location ≠ some .folder)
    ⟨fun ⟨h₁, h₂, h₃, h₄⟩ => ⟨h₁, h₂, h₃, h₄⟩, fun ⟨h₁, h₂, h₃, h₄⟩ => ⟨h₁, h₂, h₃, h₄⟩⟩

/-- Puts a file or an empty folder at a location. -/
def put (store : Store) (location : Location) (content : Content) (h : store.Takes location) :
    Store where
  entries := replace store.entries location content
  current := store.current
  distinct := by
    have hd := store.distinct
    have hs : (store.entries.filter (·.1 ≠ location)).map (·.1) =
        (store.entries.map (·.1)).filter (· ≠ location) := by
      rw [List.filter_map]
      rfl
    rw [replace, List.map_append, hs]
    refine List.nodup_append.2 ⟨hd.filter _, by simp, ?_⟩
    intro a ha b hb
    simp at hb
    simp at ha
    rw [hb]
    exact ha.2
  rooted := by
    obtain ⟨hne, -, hparent, hfree⟩ := h
    intro e he
    rw [contentAt_replace _ hne]
    rcases List.mem_append.1 he with he | he
    · obtain ⟨h1, h2⟩ := store.rooted e (List.mem_filter.1 he).1
      refine ⟨h1, ?_⟩
      rw [if_neg]
      · exact h2
      · intro hp
        exact hfree (hp ▸ h2)
    · simp at he
      subst he
      refine ⟨hne, ?_⟩
      rw [if_neg]
      · exact hparent
      · intro hp
        have := congrArg List.length hp
        have := List.length_pos_iff.2 hne
        simp at *
        omega
  named := by
    intro e he
    rcases List.mem_append.1 he with he | he
    · exact store.named e (List.mem_filter.1 he).1
    · simp at he
      subst he
      exact h.isName

@[simp] theorem get?_put (store : Store) (location : Location) (content : Content) (h)
    (other : Location) : (store.put location content h).get? other =
      if other = location then some content else store.get? other :=
  contentAt_replace _ h.ne_nil _

/-- Takes a file out of the store. -/
def erase (store : Store) (location : Location) (h : store.get? location ≠ some .folder) :
    Store where
  entries := store.entries.filter (·.1 ≠ location)
  current := store.current
  distinct := by
    have hs : (store.entries.filter (·.1 ≠ location)).map (·.1) =
        (store.entries.map (·.1)).filter (· ≠ location) := by
      rw [List.filter_map]
      rfl
    rw [hs]
    exact store.distinct.filter _
  rooted := by
    intro e he
    obtain ⟨h1, h2⟩ := store.rooted e (List.mem_filter.1 he).1
    refine ⟨h1, ?_⟩
    rw [contentAt_filter_ne]
    · exact h2
    · intro hp
      exact h (hp ▸ h2)
  named e he := store.named e (List.mem_filter.1 he).1

/-- Puts a file at a location, in place of an old one if there is one. -/
def putFile (store : Store) (location : Location) (bytes : ByteArray) : Except Refusal Store :=
  if h : store.Takes location then .ok (store.put location (.file bytes) h)
  else if store.get? location = some .folder then .error .isFolder
  else .error .notFolder

/-- Takes away what is at a location, unless it is a folder. -/
def removeFile (store : Store) (location : Location) : Store :=
  if h : store.get? location ≠ some .folder then store.erase location h else store

/-- Puts a folder at a location, unless something is there or around it is none. -/
def ensureFolder (store : Store) (location : Location) : Store :=
  if h : store.Takes location then
    if store.get? location = none then store.put location .folder h else store
  else store

/-- Puts folders at a location and at all that lead to it. -/
def ensureFolders (store : Store) (location : Location) : Store :=
  (List.range location.length).foldl
    (fun store n => store.ensureFolder (location.take (n + 1))) store

/-! ## Paths -/

/-- Follows the pieces of a path from a location. A piece that is empty or a single
dot stays where it is, and `..` leads to the folder around; from the root it leads
to the root. -/
def follow (store : Store) (location : Location) : List (List Char) → Except Refusal Location
  | [] => .ok location
  | piece :: pieces =>
    match store.get? location with
    | none => .error .notFound
    | some (.file _) => .error .notFolder
    | some .folder =>
      if piece = [] ∨ piece = ['.'] then follow store location pieces
      else if piece = ['.', '.'] then follow store location.dropLast pieces
      else
        let next := location ++ [String.ofList piece]
        match store.get? next with
        | none => .error .notFound
        | some _ => follow store next pieces

def origin (store : Store) (path : Path) : Location :=
  if path.isAbsolute then [] else store.current

/-- The location to which a path leads. The empty path leads nowhere. -/
def locate (store : Store) (path : Path) : Except Refusal Location :=
  if path.text = "" then .error .notFound
  else store.follow (store.origin path) path.pieces

def content (store : Store) (path : Path) : Except Refusal Content := do
  match store.get? (← store.locate path) with
  | some content => .ok content
  | none => .error .notFound

def isFile (store : Store) (path : Path) : Bool :=
  match store.content path with
  | .ok (.file _) => true
  | _ => false

def readBytes (store : Store) (path : Path) : Except Refusal ByteArray := do
  match ← store.content path with
  | .file bytes => .ok bytes
  | .folder => .error .isFolder

def readText (store : Store) (path : Path) : Except Refusal String := do
  match String.fromUTF8? (← store.readBytes path) with
  | some text => .ok text
  | none => .error .notText

/-- The files that are not in another store with the same bytes. -/
def filesNotIn (store old : Store) : List (Location × ByteArray) :=
  store.entries.filterMap fun e =>
    match e.2 with
    | .folder => none
    | .file bytes => if old.get? e.1 = some (.file bytes) then none else some (e.1, bytes)

/-- The path of an entry that is a file below a folder, from the path of the folder. -/
def pathBelow (root : Path) (folder : Location) (entry : Location × Content) : Option Path :=
  match entry.2 with
  | .folder => none
  | .file _ =>
    if folder.isPrefixOf entry.1 then some ((entry.1.drop folder.length).foldl Path.join root)
    else none

/-- The files at and below a path, each with the path that leads to it from there. -/
def filesBelow (store : Store) (root : Path) : Except Refusal (List Path) := do
  let location ← store.locate root
  match store.get? location with
  | none => throw .notFound
  | some (.file _) => return [root]
  | some .folder => return store.entries.filterMap (pathBelow root location)

end Store
end CTree
