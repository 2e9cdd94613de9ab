import CTree.Json.Reader
import CTree.Json.Writer
import Mathlib.Tactic

/-!
# Reading what was written

The reader goes from place to place. `Takes` says that a text leads from one place
to another, wherever it stands in the document, so that what is known about the
parts of a document can be put together. A text is a value if it can be read
wherever a value is due.
-/
namespace CTree.Json

/-- Reading the text leads from one place to another. -/
def Takes (s : List Char) (here there : Place) : Prop :=
  ∀ offset, ∃ offset', State.run ⟨offset, here⟩ s = .ok ⟨offset', there⟩

namespace Takes
variable {s t : List Char} {a b c : Place}

theorem nil (a : Place) : Takes [] a a := fun offset => ⟨offset, rfl⟩

theorem append (h : Takes s a b) (h' : Takes t b c) : Takes (s ++ t) a c := by
  intro offset
  obtain ⟨mid, hmid⟩ := h offset
  obtain ⟨last, hlast⟩ := h' mid
  exact ⟨last, by rw [State.run_append, hmid]; exact hlast⟩

theorem char {d : Char} (h : ∀ offset, (State.mk offset a).move d = .ok b) : Takes [d] a b := by
  intro offset
  refine ⟨offset + d.utf8Size, ?_⟩
  rw [State.run, List.foldlM_cons, State.step, h]
  rfl

theorem cons {d : Char} (h : ∀ offset, (State.mk offset a).move d = .ok b)
    (h' : Takes t b c) : Takes (d :: t) a c :=
  (char h).append h'

end Takes

/-- Where a document is read as a value. -/
theorem read_eq_ok {s : List Char} {j : Json} (h : Takes s ⟨[], .value⟩ ⟨[], .after j⟩) :
    read s = .ok j := by
  obtain ⟨offset, hrun⟩ := h 0
  rw [read, State.start, hrun]
  rfl

/-! ## Between the tokens -/

namespace Phase

/-- Whether white space may stand here. -/
def skipsBlanks : Phase → Bool
  | .value | .firstItem | .nextItem | .firstKey | .nextKey _ | .colon .. | .after _ => true
  | .key .. | .word .. | .number _ | .string _ => false

end Phase

/-- A text of white space. -/
def IsBlanks (s : List Char) : Prop := ∀ c ∈ s, Place.isBlank c = true

theorem move_between {phase : Phase} (h : phase.skipsBlanks = true) (stack : List Frame)
    (c : Char) (offset : Nat) :
    (State.mk offset ⟨stack, phase⟩).move c =
      State.tell (offset + 1) (Place.between stack phase c) := by
  cases phase <;> first | rfl | simp [Phase.skipsBlanks] at h

/-- White space changes nothing. -/
theorem takes_blanks {phase : Phase} (h : phase.skipsBlanks = true) (stack : List Frame)
    {s : List Char} (hs : IsBlanks s) :
    Takes s ⟨stack, phase⟩ ⟨stack, phase⟩ := by
  induction s with
  | nil => exact .nil _
  | cons c s ih =>
    have hc := hs c List.mem_cons_self
    refine .cons (fun offset => ?_) (ih fun d hd => hs d (List.mem_cons_of_mem c hd))
    have hstay : Place.between stack phase c = .ok ⟨stack, phase⟩ := by
      unfold Place.between
      exact if_pos hc
    rw [move_between h, hstay]
    rfl

/-! ## Strings -/

/-- The part of a string that was read grows by a text. -/
inductive Feeds : PartialString → List Char → PartialString → Prop
  | nil {p} : Feeds p [] p
  | cons {p c p' s q} : p.step c = .more p' → Feeds p' s q → Feeds p (c :: s) q

theorem Feeds.append {p q r : PartialString} {s t : List Char} (h : Feeds p s q)
    (h' : Feeds q t r) : Feeds p (s ++ t) r := by
  induction h with
  | nil => exact h'
  | cons hstep _ ih => exact .cons hstep (ih h')

lemma hexValue?_hexDigit {n : Nat} (h : n < 16) :
    PartialString.hexValue? (hexDigit n) = some n := by
  have hall : ∀ n < 16, PartialString.hexValue? (hexDigit n) = some n := by decide
  exact hall n h

lemma utf8Size_hexDigit {n : Nat} (h : n < 16) : (hexDigit n).utf8Size = 1 := by
  have hall : ∀ n < 16, (hexDigit n).utf8Size = 1 := by decide
  exact hall n h

/-- A control character is read back from its four digits. -/
lemma feeds_control (read : List Char) {c : Char} (h : c.toNat < 32) :
    Feeds ⟨read, .none⟩
      ['\\', 'u', '0', '0', hexDigit (c.toNat / 16), hexDigit (c.toNat % 16)]
      ⟨c :: read, .none⟩ := by
  have hhigh : c.toNat / 16 < 16 := by omega
  have hlow : c.toNat % 16 < 16 := by omega
  have hvalue : c.toNat / 16 * 16 + c.toNat % 16 = c.toNat := by omega
  have hfirst : (PartialString.mk read (.hex none 2 0 true)).step (hexDigit (c.toNat / 16)) =
      .more ⟨read, .hex none 3 (c.toNat / 16) true⟩ := by
    simp [PartialString.step, hexValue?_hexDigit hhigh, utf8Size_hexDigit hhigh]
  have hsecond : (PartialString.mk read (.hex none 3 (c.toNat / 16) true)).step
      (hexDigit (c.toNat % 16)) = .more ⟨c :: read, .none⟩ := by
    have hlone : ¬ (0xDC00 ≤ c.toNat ∧ c.toNat ≤ 0xDFFF) := by omega
    have hhalf : ¬ (0xD800 ≤ c.toNat ∧ c.toNat ≤ 0xDBFF) := by omega
    simp [PartialString.step, hexValue?_hexDigit hlow, utf8Size_hexDigit hlow, hvalue,
      PartialString.unit, hlone, hhalf]
  exact .cons rfl (.cons rfl (.cons rfl (.cons rfl (.cons hfirst (.cons hsecond .nil)))))

/-- A character is read back from what is written for it. -/
theorem feeds_escape (read : List Char) (c : Char) :
    Feeds ⟨read, .none⟩ (escape c) ⟨c :: read, .none⟩ := by
  unfold escape
  split_ifs with h₁ h₂ h₃ h₄ h₅ h₆ h₇ h₈
  all_goals first | subst c | skip
  iterate 7 exact .cons rfl (.cons rfl .nil)
  · exact feeds_control read h₈
  · refine .cons ?_ .nil
    simp [PartialString.step, h₁, h₂, h₈]

theorem feeds_escapes (read s : List Char) :
    Feeds ⟨read, .none⟩ (s.flatMap escape) ⟨s.reverse ++ read, .none⟩ := by
  induction s generalizing read with
  | nil => exact .nil
  | cons c s ih =>
    have hrest := ih (c :: read)
    rw [List.flatMap_cons]
    refine (feeds_escape read c).append ?_
    simpa using hrest

/-- The text of a string behind its opening quote. -/
def closing (s : String) : List Char := s.toList.flatMap escape ++ ['\"']

lemma step_quote (s : List Char) :
    (PartialString.mk (s.reverse ++ []) .none).step '\"' = .over (String.ofList s) := by
  simp [PartialString.step]

/-- A string is read to its end, whatever it is read for. -/
theorem takes_closing {stack : List Frame} {phase : PartialString → Phase} {after : Phase}
    (s : String)
    (hmore : ∀ p c p' offset, p.step c = .more p' →
      (State.mk offset ⟨stack, phase p⟩).move c = .ok ⟨stack, phase p'⟩)
    (hover : ∀ p c offset, p.step c = .over s →
      (State.mk offset ⟨stack, phase p⟩).move c = .ok ⟨stack, after⟩) :
    Takes (closing s) ⟨stack, phase .empty⟩ ⟨stack, after⟩ := by
  have hfeeds : ∀ {p t q}, Feeds p t q → Takes t ⟨stack, phase p⟩ ⟨stack, phase q⟩ := by
    intro p t q h
    induction h with
    | nil => exact .nil _
    | cons hstep _ ih => exact .cons (fun offset => hmore _ _ _ offset hstep) ih
  refine (hfeeds (feeds_escapes [] s.toList)).append (.char fun offset => hover _ _ _ ?_)
  rw [step_quote, String.ofList_toList]

theorem takes_string (stack : List Frame) (s : String) :
    Takes (closing s) ⟨stack, .string .empty⟩ ⟨stack, .after (.string s)⟩ := by
  refine takes_closing s ?_ ?_
  · intro p c p' offset h
    simp only [State.move, h]
  · intro p c offset h
    simp only [State.move, h]

theorem takes_key (stack : List Frame) (members : List (String × Json)) (s : String) :
    Takes (closing s) ⟨stack, .key members .empty⟩ ⟨stack, .colon members s⟩ := by
  refine takes_closing s ?_ ?_
  · intro p c p' offset h
    simp only [State.move, h]
  · intro p c offset h
    simp only [State.move, h]

/-! ## Values -/

/-- The text is a value, wherever one is due. -/
def IsText (s : List Char) (j : Json) : Prop :=
  ∃ c r, s = c :: r ∧ Place.isBlank c = false ∧ c ≠ ']' ∧
    ∀ stack, ∃ place, Place.beginValue stack c = .ok place ∧ Takes r place ⟨stack, .after j⟩

namespace IsText
variable {s t : List Char} {j : Json}

theorem takes (h : IsText s j) (stack : List Frame) :
    Takes s ⟨stack, .value⟩ ⟨stack, .after j⟩ := by
  obtain ⟨c, r, rfl, hblank, -, h⟩ := h
  obtain ⟨place, hbegin, htakes⟩ := h stack
  refine .cons (fun offset => ?_) htakes
  simp [State.move, Place.between, hblank, hbegin, State.tell]

theorem takes_first (h : IsText s j) (stack : List Frame) :
    Takes s ⟨stack, .firstItem⟩ ⟨.array [] :: stack, .after j⟩ := by
  obtain ⟨c, r, rfl, hblank, hclose, h⟩ := h
  obtain ⟨place, hbegin, htakes⟩ := h (.array [] :: stack)
  refine .cons (fun offset => ?_) htakes
  simp [State.move, Place.between, hblank, hclose, hbegin, State.tell]

theorem takes_next (h : IsText s j) (stack : List Frame) :
    Takes s ⟨stack, .nextItem⟩ ⟨stack, .after j⟩ := by
  obtain ⟨c, r, rfl, hblank, hclose, h⟩ := h
  obtain ⟨place, hbegin, htakes⟩ := h stack
  refine .cons (fun offset => ?_) htakes
  simp [State.move, Place.between, hblank, hclose, hbegin, State.tell]

theorem string (s : String) : IsText ('\"' :: closing s) (.string s) :=
  ⟨'\"', closing s, rfl, rfl, by decide, fun stack => ⟨_, rfl, takes_string stack s⟩⟩

/-- The text of an object of one member. -/
theorem object {key : String} {gap mark last : List Char}
    (hgap : IsBlanks gap) (hmark : IsBlanks mark) (hlast : IsBlanks last) (h : IsText s j) :
    IsText ('\x7b' :: (gap ++ '\"' :: (closing key ++ ':' :: (mark ++ (s ++ (last ++ ['\x7d']))))))
      (.object [(key, j)]) := by
  refine ⟨'\x7b', _, rfl, rfl, by decide, fun stack => ⟨_, rfl, ?_⟩⟩
  refine (takes_blanks rfl stack hgap).append ?_
  refine .cons (b := ⟨stack, .key [] .empty⟩) (fun offset => rfl) ?_
  refine (takes_key stack [] key).append ?_
  refine .cons (b := ⟨.object [] key :: stack, .value⟩) (fun offset => rfl) ?_
  refine (takes_blanks rfl _ hmark).append ((h.takes _).append ?_)
  exact (takes_blanks rfl _ hlast).append (.char fun offset => rfl)

theorem emptyArray : IsText ['[', ']'] (.array []) :=
  ⟨'[', [']'], rfl, rfl, by decide, fun stack => ⟨_, rfl, .char fun offset => rfl⟩⟩

end IsText

/-- Further items, behind an item of an array. -/
def AreItems (s : List Char) (items : List Json) : Prop :=
  ∀ stack done j, ∃ done' j', (j' :: done').reverse = (j :: done).reverse ++ items ∧
    Takes s ⟨.array done :: stack, .after j⟩ ⟨.array done' :: stack, .after j'⟩

namespace AreItems
variable {s t : List Char} {j : Json} {items : List Json}

theorem nil : AreItems [] [] := fun stack done j => ⟨done, j, by simp, .nil _⟩

theorem cons {gap : List Char} (hgap : IsBlanks gap) (h : IsText s j) (h' : AreItems t items) :
    AreItems (',' :: (gap ++ (s ++ t))) (j :: items) := by
  intro stack done i
  obtain ⟨done', j', heq, htakes⟩ := h' stack (i :: done) j
  refine ⟨done', j', by rw [heq]; simp, ?_⟩
  refine .cons (b := ⟨.array (i :: done) :: stack, .nextItem⟩) (fun offset => rfl) ?_
  exact (takes_blanks rfl _ hgap).append ((h.takes_next _).append htakes)

end AreItems

/-- The text of an array of at least one item. -/
theorem IsText.array {s t gap last : List Char} {j : Json} {items : List Json}
    (hgap : IsBlanks gap) (hlast : IsBlanks last) (h : IsText s j) (h' : AreItems t items) :
    IsText ('[' :: (gap ++ (s ++ (t ++ (last ++ [']']))))) (.array (j :: items)) := by
  refine ⟨'[', _, rfl, rfl, by decide, fun stack => ⟨_, rfl, ?_⟩⟩
  obtain ⟨done, i, heq, htakes⟩ := h' stack [] j
  refine (takes_blanks rfl stack hgap).append ((h.takes_first stack).append ?_)
  refine htakes.append ((takes_blanks rfl _ hlast).append (.char fun offset => ?_))
  have hitems : (i :: done).reverse = j :: items := by simpa using heq
  rw [← hitems]
  rfl

end CTree.Json
