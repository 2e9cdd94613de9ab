import CTree.Proofs.DocumentRoundTrip

/-!
# The two layouts of a document

A label may hold spaces, line feeds, quotes and braces. None of them is taken for
layout: a label is written between quotes and with its quotes escaped, so the
characters between the tokens are told from those of the labels by counting quotes.
What is written for a tree is the same in both layouts once the spaces and line
feeds between the tokens are deleted.
-/
namespace CTree.Json

/-! ## Deleting the layout -/

/-- Where a character of a document stands. -/
inductive Zone
  | outside
  | inside
  /-- Behind a backslash in a string. -/
  | escaped
  deriving Repr, DecidableEq

namespace Zone

/-- Where the character behind this one stands. -/
def next : Zone → Char → Zone
  | outside, c => if c = '\"' then inside else outside
  | inside, c => if c = '\"' then outside else if c = '\\' then escaped else inside
  | escaped, _ => inside

end Zone

/-- The text without the spaces and line feeds outside of its strings. -/
def squeeze : Zone → List Char → List Char
  | _, [] => []
  | zone, c :: s =>
    if zone = .outside ∧ (c = ' ' ∨ c = '\n') then squeeze zone s
    else c :: squeeze (zone.next c) s

example : squeeze .outside "[ \"a\\\" \", \n\" \"]".toList = "[\"a\\\" \",\" \"]".toList := by
  decide

lemma squeeze_inside {c : Char} (hquote : c ≠ '\"') (hslash : c ≠ '\\') (rest : List Char) :
    squeeze .inside (c :: rest) = c :: squeeze .inside rest := by
  rw [squeeze, if_neg (by simp), Zone.next, if_neg hquote, if_neg hslash]

/-- Without its layout the text is the line, whatever stands behind it. -/
def Squeezes (s line : List Char) : Prop :=
  ∀ rest, squeeze .outside (s ++ rest) = line ++ squeeze .outside rest

namespace Squeezes
variable {s t line line' : List Char}

theorem nil : Squeezes [] [] := fun _ => rfl

theorem append (h : Squeezes s line) (h' : Squeezes t line') :
    Squeezes (s ++ t) (line ++ line') := by
  intro rest
  rw [List.append_assoc, h, h', List.append_assoc]

theorem gap {layout : Layout} (h : IsGap layout s) : Squeezes s [] := by
  induction s with
  | nil => exact nil
  | cons c s ih =>
    obtain ⟨⟨-, hc⟩, hs⟩ := List.forall_mem_cons.1 h
    intro rest
    rw [List.cons_append, squeeze, if_pos ⟨rfl, hc⟩]
    exact ih hs rest

theorem char {c : Char} (hquote : c ≠ '\"') (hspace : c ≠ ' ') (hline : c ≠ '\n') :
    Squeezes [c] [c] := by
  intro rest
  rw [List.singleton_append, squeeze, if_neg (by simp [hspace, hline]), Zone.next, if_neg hquote]
  rfl

end Squeezes

/-! ## Strings -/

lemma hexDigit_plain {n : Nat} (h : n < 16) :
    32 ≤ (hexDigit n).toNat ∧ hexDigit n ≠ '\"' ∧ hexDigit n ≠ '\\' := by
  have hall : ∀ n < 16, 32 ≤ (hexDigit n).toNat ∧ hexDigit n ≠ '\"' ∧ hexDigit n ≠ '\\' := by
    decide
  exact hall n h

/-- A character is written with none that ends the string. -/
theorem squeeze_escape (c : Char) (rest : List Char) :
    squeeze .inside (escape c ++ rest) = escape c ++ squeeze .inside rest := by
  unfold escape
  split_ifs with h₁ h₂ h₃ h₄ h₅ h₆ h₇ h₈
  iterate 7 rfl
  · obtain ⟨-, hquote, hslash⟩ := hexDigit_plain (show c.toNat / 16 < 16 by omega)
    obtain ⟨-, hquote', hslash'⟩ := hexDigit_plain (show c.toNat % 16 < 16 by omega)
    have hdigits := squeeze_inside hquote hslash (hexDigit (c.toNat % 16) :: rest)
    rw [squeeze_inside hquote' hslash'] at hdigits
    exact congrArg ('\\' :: 'u' :: '0' :: '0' :: ·) hdigits
  · exact squeeze_inside h₁ h₂ rest

theorem squeezes_string (s : String) : Squeezes ('\"' :: closing s) ('\"' :: closing s) := by
  have hinside : ∀ (text rest : List Char),
      squeeze .inside (text.flatMap escape ++ '\"' :: rest) =
        text.flatMap escape ++ '\"' :: squeeze .outside rest := by
    intro text rest
    induction text with
    | nil => rfl
    | cons c text ih =>
      rw [List.flatMap_cons, List.append_assoc, squeeze_escape, ih, List.append_assoc]
  intro rest
  have hstring := hinside s.toList rest
  rw [closing, List.cons_append, List.append_assoc, List.cons_append]
  rw [squeeze]
  simpa [Zone.next] using hstring

/-- A text that can be shown in one line. -/
def InLine (s : List Char) : Prop := ∀ c ∈ s, 32 ≤ c.toNat

theorem InLine.append {s t : List Char} (h : InLine s) (h' : InLine t) : InLine (s ++ t) :=
  fun c hc => (List.mem_append.1 hc).elim (h c) (h' c)

theorem inLine_escape (c : Char) : InLine (escape c) := by
  unfold escape
  split_ifs with h₁ h₂ h₃ h₄ h₅ h₆ h₇ h₈
  iterate 7 exact by unfold InLine; decide
  · have hhigh := (hexDigit_plain (show c.toNat / 16 < 16 by omega)).1
    have hlow := (hexDigit_plain (show c.toNat % 16 < 16 by omega)).1
    simp [InLine, hhigh, hlow]
  · simpa [InLine] using h₈

theorem inLine_string (s : String) : InLine ('\"' :: closing s) := by
  have htext : InLine (s.toList.flatMap escape) := by
    intro d hd
    obtain ⟨c, -, hc⟩ := List.mem_flatMap.1 hd
    exact inLine_escape c d hc
  have hquote : InLine ['\"'] := by unfold InLine; decide
  exact hquote.append (htext.append hquote)

/-! ## What is written -/

theorem IsGap.eq_nil {s : List Char} (h : IsGap .compact s) : s = [] :=
  List.eq_nil_iff_forall_not_mem.2 fun c hc => by cases (h c hc).1

/-- The writer appends the same line at every level and in either layout, except that the
pretty layout has white space between the tokens of it. -/
def OneLine (write : Layout → Nat → String → String) : Prop :=
  ∃ line, InLine line ∧ ∀ layout level, ∃ s, Writes (write layout level) s ∧
    Squeezes s line ∧ (layout = .compact → s = line)

namespace OneLine
variable {f g : Layout → Nat → String → String}

theorem comp (hf : OneLine f) (hg : OneLine g) :
    OneLine (fun layout level out => g layout level (f layout level out)) := by
  obtain ⟨first, hfirst, hf⟩ := hf
  obtain ⟨second, hsecond, hg⟩ := hg
  refine ⟨first ++ second, hfirst.append hsecond, fun layout level => ?_⟩
  obtain ⟨s, hs, hsqueezes, hcompact⟩ := hf layout level
  obtain ⟨t, ht, hsqueezes', hcompact'⟩ := hg layout level
  refine ⟨s ++ t, hs.comp ht, hsqueezes.append hsqueezes', fun h => ?_⟩
  rw [hcompact h, hcompact' h]

/-- What stands one level deeper. -/
theorem deeper (h : OneLine f) : OneLine (fun layout level => f layout (level + 1)) := by
  obtain ⟨line, hline, h⟩ := h
  exact ⟨line, hline, fun layout level => h layout (level + 1)⟩

theorem nothing : OneLine (fun _ _ out => out) :=
  ⟨[], by simp [InLine], fun _ _ => ⟨[], .id, .nil, fun _ => rfl⟩⟩

theorem push {c : Char} (hprinted : 32 < c.toNat) (hquote : c ≠ '\"') :
    OneLine (fun _ _ out => out.push c) := by
  have hspace : c ≠ ' ' := by
    rintro rfl
    exact absurd hprinted (by decide)
  have hline : c ≠ '\n' := by
    rintro rfl
    exact absurd hprinted (by decide)
  refine ⟨[c], ?_, fun _ _ => ⟨[c], .push c, .char hquote hspace hline, fun _ => rfl⟩⟩
  simpa [InLine] using hprinted.le

theorem string (s : String) : OneLine (fun _ _ => writeString s) :=
  ⟨_, inLine_string s, fun _ _ => ⟨_, .string s, squeezes_string s, fun _ => rfl⟩⟩

theorem lineBreak : OneLine Layout.lineBreak := by
  refine ⟨[], by simp [InLine], fun layout level => ?_⟩
  obtain ⟨gap, hgap, hwrites⟩ := writes_lineBreak layout level
  refine ⟨gap, hwrites, .gap hgap, ?_⟩
  rintro rfl
  exact hgap.eq_nil

theorem colon : OneLine (fun layout _ out => out ++ layout.colon) := by
  refine ⟨[':'], by unfold InLine; decide, fun layout level => ?_⟩
  obtain ⟨mark, hmark, hwrites⟩ := writes_colon layout
  have hchar : Squeezes [':'] [':'] := .char (by decide) (by decide) (by decide)
  refine ⟨':' :: mark, hwrites, hchar.append (.gap hmark), ?_⟩
  rintro rfl
  rw [hmark.eq_nil]

end OneLine
end CTree.Json

namespace CTree.Tree
open CTree.Json

theorem oneLine_node {write : Json.Layout → Nat → String → String} (h : OneLine write)
    (label : String) :
    OneLine (fun layout level out =>
      closeNode layout level (write layout (level + 1) (openNode layout level label out))) := by
  have hbrace : OneLine (fun _ _ out => out.push '\x7b') := .push (by decide) (by decide)
  have hopen := ((hbrace.comp OneLine.lineBreak.deeper).comp (.string label)).comp .colon
  have hclose : OneLine (fun _ _ out => out.push '\x7d') := .push (by decide) (by decide)
  exact ((hopen.comp h.deeper).comp .lineBreak).comp hclose

theorem oneLine_emptyArray : OneLine (fun _ _ out => out ++ "[]") := by
  have hopen : OneLine (fun _ _ out => out.push '[') := .push (by decide) (by decide)
  have hclose : OneLine (fun _ _ out => out.push ']') := .push (by decide) (by decide)
  have heq : ∀ out : String, (out.push '[').push ']' = out ++ "[]" :=
    fun out => String.toList_injective (by simp)
  simpa only [heq] using hopen.comp hclose

mutual

/-- The document of a tree is one line, apart from the layout. -/
theorem oneLine_write : (t : Tree) → OneLine (fun layout level => t.write layout level)
  | leaf label => by
    simp only [write]
    exact .string label
  | unary label child => by
    simp only [write]
    exact oneLine_node (oneLine_write child) label
  | nary label children => by
    simp only [write]
    exact oneLine_node (oneLine_writeArray children) label

theorem oneLine_writeArray : (ts : List Tree) →
    OneLine (fun layout level => writeArray layout level ts)
  | [] => by
    simp only [writeArray]
    exact oneLine_emptyArray
  | t :: ts => by
    have hopen : OneLine (fun _ _ out => out.push '[') := .push (by decide) (by decide)
    have hclose : OneLine (fun _ _ out => out.push ']') := .push (by decide) (by decide)
    have hfirst := (hopen.comp OneLine.lineBreak.deeper).comp (oneLine_write t).deeper
    have hitems := hfirst.comp (oneLine_writeOthers ts).deeper
    simp only [writeArray]
    exact (hitems.comp .lineBreak).comp hclose

theorem oneLine_writeOthers : (ts : List Tree) →
    OneLine (fun layout level => writeOthers layout level ts)
  | [] => by
    simp only [writeOthers]
    exact .nothing
  | t :: ts => by
    have hcomma : OneLine (fun _ _ out => out.push ',') := .push (by decide) (by decide)
    have hitem := (hcomma.comp .lineBreak).comp (oneLine_write t)
    simp only [writeOthers]
    exact hitem.comp (oneLine_writeOthers ts)

end

end CTree.Tree

namespace CTree.Source
open CTree.Json
open CTree.Tree (maxDepth)

/-- The documents of a tree in the two layouts are read as the value of the tree. They differ
in spaces and line feeds between the tokens, of which the compact one has none: it is a
single line. -/
theorem layouts_agree {tree : Tree} (h : tree.depth ≤ maxDepth) :
    (∀ layout, ∃ document, encode layout tree = .ok document ∧
      readJson document = .ok tree.toJson) ∧
    ∃ pretty compact, encode .pretty tree = .ok pretty ∧ encode .compact tree = .ok compact ∧
      squeeze .outside pretty.toList = compact.toList ∧
      ∀ c ∈ compact.toList, 32 ≤ c.toNat := by
  refine ⟨fun layout => ⟨_, encode_eq_ok_iff.2 ⟨h, rfl⟩, ?_⟩, _, _,
    encode_eq_ok_iff.2 ⟨h, rfl⟩, encode_eq_ok_iff.2 ⟨h, rfl⟩, ?_⟩
  · rw [readJson, read_render (readBack_toJson tree) layout]
    rfl
  · obtain ⟨line, hline, hwrites⟩ := tree.oneLine_write
    obtain ⟨pretty, hpretty, hsqueezes, -⟩ := hwrites .pretty 0
    obtain ⟨compact, hcompact, -, hsame⟩ := hwrites .compact 0
    have hfirst : (tree.toJson.render .pretty).toList = pretty := by
      rw [render, ← Tree.write_eq, hpretty]
      rfl
    have hsecond : (tree.toJson.render .compact).toList = line := by
      rw [render, ← Tree.write_eq, hcompact, hsame rfl]
      rfl
    have hall := hsqueezes []
    rw [List.append_nil, squeeze, List.append_nil] at hall
    rw [hfirst, hsecond]
    exact ⟨hall, hline⟩

/-- A tree whose labels look like marks and layout, with nodes of one child and of none. -/
def marked : Tree := .nary " \x7b\"\n" [.nary "" [.unary "\\" (.nary ": " [])]]

theorem layouts_agree_marked :
    marked.depth ≤ maxDepth ∧
    (∀ layout, ∃ document, encode layout marked = .ok document ∧
      readJson document = .ok marked.toJson) ∧
    ∃ pretty compact, encode .pretty marked = .ok pretty ∧ encode .compact marked = .ok compact ∧
      squeeze .outside pretty.toList = compact.toList ∧ pretty ≠ compact := by
  have hdepth : marked.depth ≤ maxDepth := by decide
  have hbreak : '\n' ∈ (marked.toJson.render .pretty).toList := by decide +kernel
  obtain ⟨hread, pretty, compact, hpretty, hcompact, hsqueeze, hprinted⟩ := layouts_agree hdepth
  obtain ⟨-, rfl⟩ := encode_eq_ok_iff.1 hpretty
  refine ⟨hdepth, hread, _, compact, hpretty, hcompact, hsqueeze, ?_⟩
  rintro rfl
  exact absurd (hprinted _ hbreak) (by decide)

end CTree.Source
