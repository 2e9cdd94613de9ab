import CTree.Proofs.JsonReading
import CTree.Proofs.TreeConversion

/-!
# Documents are read back

Each writer appends a text that does not depend on what was written before. What is
written for a tree can be read wherever a value is due, in either layout, hence a
document is read as the tree it was written for.
-/
namespace CTree.Json

/-- The writer appends the text, whatever was written before. -/
def Writes (write : String → String) (s : List Char) : Prop :=
  ∀ out, (write out).toList = out.toList ++ s

namespace Writes
variable {f g : String → String} {s t : List Char}

theorem comp (hf : Writes f s) (hg : Writes g t) : Writes (fun out => g (f out)) (s ++ t) := by
  intro out
  rw [hg, hf, List.append_assoc]

theorem id : Writes (fun out => out) [] := fun out => by simp

theorem push (c : Char) : Writes (·.push c) [c] := fun out => by simp

theorem text (s : String) : Writes (· ++ s) s.toList := fun out => by simp

theorem foldl_push (s : List Char) : Writes (s.foldl String.push) s := by
  induction s with
  | nil => exact id
  | cons c s ih => exact (push c).comp ih

theorem foldl_escape (s : List Char) :
    Writes (s.foldl fun out c => (escape c).foldl String.push out) (s.flatMap escape) := by
  induction s with
  | nil => exact id
  | cons c s ih => exact (foldl_push (escape c)).comp ih

theorem string (s : String) : Writes (writeString s) ('\"' :: closing s) := by
  have hparts := ((push '\"').comp (foldl_escape s.toList)).comp (push '\"')
  exact hparts

end Writes

/-- White space that the layout puts between tokens. -/
def IsGap (layout : Layout) (s : List Char) : Prop :=
  ∀ c ∈ s, layout = .pretty ∧ (c = ' ' ∨ c = '\n')

theorem IsGap.blanks {layout : Layout} {s : List Char} (h : IsGap layout s) : IsBlanks s := by
  intro c hc
  rcases (h c hc).2 with rfl | rfl <;> rfl

theorem writes_lineBreak (layout : Layout) (level : Nat) :
    ∃ gap, IsGap layout gap ∧ Writes (layout.lineBreak level) gap := by
  cases layout with
  | compact => exact ⟨[], by simp [IsGap], .id⟩
  | pretty =>
    induction level with
    | zero => exact ⟨['\n'], by simp [IsGap], .push '\n'⟩
    | succ level ih =>
      obtain ⟨gap, hgap, hwrites⟩ := ih
      have hindent : IsGap .pretty "    ".toList := by simp [IsGap]
      refine ⟨gap ++ "    ".toList, ?_, hwrites.comp (.text "    ")⟩
      intro c hc
      exact (List.mem_append.1 hc).elim (hgap c) (hindent c)

theorem writes_colon (layout : Layout) :
    ∃ mark, IsGap layout mark ∧ Writes (· ++ layout.colon) (':' :: mark) := by
  cases layout with
  | compact => exact ⟨[], by simp [IsGap], .text ":"⟩
  | pretty => exact ⟨[' '], by simp [IsGap], .text ": "⟩

/-- What is written for the value can be read wherever a value is due. -/
def ReadBack (j : Json) : Prop :=
  ∀ layout level, ∃ s, Writes (write layout level j) s ∧ IsText s j

def AllReadBack (items : List Json) : Prop :=
  ∀ layout level, ∃ s, Writes (writeItems layout level items) s ∧ AreItems s items

theorem readBack_string (s : String) : ReadBack (.string s) :=
  fun _ _ => ⟨_, .string s, .string s⟩

theorem ReadBack.object {key : String} {j : Json} (h : ReadBack j) :
    ReadBack (.object [(key, j)]) := by
  intro layout level
  obtain ⟨gap, hgap, hwgap⟩ := writes_lineBreak layout (level + 1)
  obtain ⟨mark, hmark, hwmark⟩ := writes_colon layout
  obtain ⟨s, hws, hs⟩ := h layout (level + 1)
  obtain ⟨last, hlast, hwlast⟩ := writes_lineBreak layout level
  refine ⟨_, ?_, .object hgap.blanks hmark.blanks hlast.blanks hs⟩
  have hopen := (Writes.push '\x7b').comp hwgap
  have hkey := (hopen.comp (.string key)).comp hwmark
  have hall := ((hkey.comp hws).comp hwlast).comp (.push '\x7d')
  intro out
  rw [write, writeMembers, hall]
  simp

theorem readBack_emptyArray : ReadBack (.array []) :=
  fun _ _ => ⟨_, .text "[]", .emptyArray⟩

theorem ReadBack.array {j : Json} {items : List Json} (h : ReadBack j)
    (h' : AllReadBack items) : ReadBack (.array (j :: items)) := by
  intro layout level
  obtain ⟨gap, hgap, hwgap⟩ := writes_lineBreak layout (level + 1)
  obtain ⟨s, hws, hs⟩ := h layout (level + 1)
  obtain ⟨t, hwt, ht⟩ := h' layout (level + 1)
  obtain ⟨last, hlast, hwlast⟩ := writes_lineBreak layout level
  refine ⟨_, ?_, .array hgap.blanks hlast.blanks hs ht⟩
  have hfirst := ((Writes.push '[').comp hwgap).comp hws
  have hall := ((hfirst.comp hwt).comp hwlast).comp (.push ']')
  intro out
  rw [write, hall]
  simp

theorem allReadBack_nil : AllReadBack [] := fun _ _ => ⟨[], .id, .nil⟩

theorem AllReadBack.cons {j : Json} {items : List Json} (h : ReadBack j)
    (h' : AllReadBack items) : AllReadBack (j :: items) := by
  intro layout level
  obtain ⟨gap, hgap, hwgap⟩ := writes_lineBreak layout level
  obtain ⟨s, hws, hs⟩ := h layout level
  obtain ⟨t, hwt, ht⟩ := h' layout level
  refine ⟨_, ?_, .cons hgap.blanks hs ht⟩
  have hall := (((Writes.push ',').comp hwgap).comp hws).comp hwt
  intro out
  rw [writeItems, hall]
  simp

mutual

/-- The value of a tree is read back. -/
theorem readBack_toJson : (t : Tree) → ReadBack t.toJson
  | .leaf label => readBack_string label
  | .unary _ child => (readBack_toJson child).object
  | .nary _ [] => readBack_emptyArray.object
  | .nary _ (t :: ts) => ((readBack_toJson t).array (allReadBack_toJsonAll ts)).object

theorem allReadBack_toJsonAll : (ts : List Tree) → AllReadBack (Tree.toJsonAll ts)
  | [] => allReadBack_nil
  | t :: ts => .cons (readBack_toJson t) (allReadBack_toJsonAll ts)

end

/-- A value that is read back inside of a document is read back as a document. -/
theorem read_render {j : Json} (h : ReadBack j) (layout : Layout) :
    read (j.render layout).toList = .ok j := by
  obtain ⟨s, hwrites, htext⟩ := h layout 0
  have hrender : (j.render layout).toList = s := by
    rw [render, hwrites]
    rfl
  rw [hrender]
  exact read_eq_ok (htext.takes [])

end CTree.Json

namespace CTree.Source
open CTree.Tree (maxDepth)

/-- A tree that can be written is read back from either layout. -/
theorem decode_render {tree : Tree} (hwell : tree.wellFormed = true)
    (hdepth : tree.depth ≤ maxDepth) (layout : Json.Layout) :
    decode (tree.toJson.render layout) = .ok tree := by
  rw [decode_eq_ok_iff]
  refine ⟨?_, hwell, hdepth⟩
  rw [readJson, Json.read_render (Json.readBack_toJson tree) layout]
  rfl

/-- Trees survive being written and read, and their documents are compared as the trees are,
whatever the layouts. -/
theorem text_round_trip {v w : Tree} (hv : v.wellFormed = true) (hvdepth : v.depth ≤ maxDepth)
    (hw : w.wellFormed = true) (hwdepth : w.depth ≤ maxDepth) (p q : Json.Layout) :
    ∃ first second, encode p v = .ok first ∧ decode first = .ok v ∧
      encode q w = .ok second ∧ decode second = .ok w ∧
      equalDocuments first second = .ok (decide (v = w)) := by
  have hfirst := decode_render hv hvdepth p
  have hsecond := decode_render hw hwdepth q
  refine ⟨_, _, encode_eq_ok_iff.2 ⟨hvdepth, rfl⟩, hfirst, encode_eq_ok_iff.2 ⟨hwdepth, rfl⟩,
    hsecond, ?_⟩
  rw [equalDocuments, hfirst, hsecond]
  rfl

theorem text_round_trip_escapes :
    ∃ first second,
      encode .pretty (.nary "\"\\\n\x01é" [.leaf "", .unary "a" (.leaf "\t")]) = .ok first ∧
      decode first = .ok (.nary "\"\\\n\x01é" [.leaf "", .unary "a" (.leaf "\t")]) ∧
      encode .compact (.leaf "\"") = .ok second ∧ decode second = .ok (.leaf "\"") ∧
      equalDocuments first second = .ok (decide
        (Tree.nary "\"\\\n\x01é" [.leaf "", .unary "a" (.leaf "\t")] = .leaf "\"")) := by
  have hv : (Tree.nary "\"\\\n\x01é" [.leaf "", .unary "a" (.leaf "\t")]).wellFormed = true := by
    decide
  have hvdepth : (Tree.nary "\"\\\n\x01é" [.leaf "", .unary "a" (.leaf "\t")]).depth ≤
      maxDepth := by
    decide
  have hw : (Tree.leaf "\"").wellFormed = true := by decide
  have hwdepth : (Tree.leaf "\"").depth ≤ maxDepth := by decide
  exact text_round_trip hv hvdepth hw hwdepth .pretty .compact

end CTree.Source
