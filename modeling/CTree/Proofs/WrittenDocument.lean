import CTree.Proofs.JsonReading

/-!
# What an accepted document is made of

A document is seen as a row of lexemes: its strings and the marks that show its
shape. Such a row can be had from the text alone, whatever the reader makes of it.
What the reader accepts is the row of some value whose members stand in the order
of the text, those of one key included, and the reader hands on what is left of
this value once its members are merged.

The invariant of the reader is that at each place the lexemes of the text so far
are those of what is open, of what is done, and of the value at hand.
-/
namespace CTree.Json

/-! ## Lexemes -/

/-- What a document is made of, apart from its numbers, its words, its commas and its
layout. -/
inductive Lexeme
  | string (s : String)
  /-- A bracket, a brace or a colon. -/
  | mark (c : Char)
  deriving Repr, DecidableEq

namespace Lexeme

def literal? : Lexeme → Option String
  | string s => some s
  | mark _ => none

end Lexeme

def isMark (c : Char) : Bool :=
  c = '[' || c = ']' || c = '\x7b' || c = '\x7d' || c = ':'

/-- A character that belongs to no lexeme, outside of strings. -/
def isPlain (c : Char) : Bool := !(c = '\"' || isMark c)

/-- The lexemes of the rest of a text, which goes on inside of a string or outside of any. -/
def lexemesFrom : Option PartialString → List Char → List Lexeme
  | _, [] => []
  | none, c :: s =>
    if c = '\"' then lexemesFrom (some .empty) s
    else if isMark c then .mark c :: lexemesFrom none s
    else lexemesFrom none s
  | some p, c :: s =>
    match p.step c with
    | .more p => lexemesFrom (some p) s
    | .over text => .string text :: lexemesFrom none s
    | .refused .. => []

def lexemes (text : List Char) : List Lexeme := lexemesFrom none text

/-- The strings of a text from left to right. -/
def literals (text : List Char) : List String := (lexemes text).filterMap Lexeme.literal?

/-! ## Written values -/

mutual

/-- The lexemes of a value that is written with its members in the order they have. -/
def written : Json → List Lexeme
  | null | bool _ | number _ => []
  | string s => [.string s]
  | array items => .mark '[' :: (writtenItems items ++ [.mark ']'])
  | object members => .mark '\x7b' :: (writtenMembers members ++ [.mark '\x7d'])

def writtenItems : List Json → List Lexeme
  | [] => []
  | j :: js => j.written ++ writtenItems js

def writtenMembers : List (String × Json) → List Lexeme
  | [] => []
  | (key, j) :: members => .string key :: .mark ':' :: (j.written ++ writtenMembers members)

end

mutual

/-- What is kept of a value that is written: the last one of the members of a key. -/
def merged : Json → Json
  | null => null
  | bool b => bool b
  | number n => number n
  | string s => string s
  | array items => array (mergedItems items)
  | object members => object (mergedMembers [] members)

def mergedItems : List Json → List Json
  | [] => []
  | j :: js => j.merged :: mergedItems js

/-- The members `done` with further ones. -/
def mergedMembers (done : List (String × Json)) :
    List (String × Json) → List (String × Json)
  | [] => done
  | (key, j) :: members => mergedMembers (insertMember key j.merged done) members

end

section
variable {items : List Json} {members done : List (String × Json)} {key : String} {j : Json}

theorem writtenItems_concat : writtenItems (items ++ [j]) = writtenItems items ++ j.written := by
  induction items with
  | nil => simp [writtenItems]
  | cons i items ih => simp [writtenItems, ih]

theorem writtenMembers_concat : writtenMembers (members ++ [(key, j)]) =
    writtenMembers members ++ .string key :: .mark ':' :: j.written := by
  induction members with
  | nil => simp [writtenMembers]
  | cons m members ih => simp [writtenMembers, ih]

theorem mergedItems_concat : mergedItems (items ++ [j]) = mergedItems items ++ [j.merged] := by
  induction items with
  | nil => simp [mergedItems]
  | cons i items ih => simp [mergedItems, ih]

theorem mergedMembers_concat : mergedMembers done (members ++ [(key, j)]) =
    insertMember key j.merged (mergedMembers done members) := by
  induction members generalizing done with
  | nil => simp [mergedMembers]
  | cons m members ih => simp [mergedMembers, ih]

end

/-! ## The lexemes of what was read -/

namespace Place

/-- The string that is read. -/
def partial? (place : Place) : Option PartialString :=
  match place.phase with
  | .key _ p | .string p => some p
  | _ => none

end Place

/-- Inside of these brackets a value is due, and these are the lexemes so far. -/
inductive Open : List Lexeme → List Frame → Prop
  | document : Open [] []
  | array {ls stack} (h : Open ls stack) (items : List Json) :
      Open (ls ++ .mark '[' :: writtenItems items) (.array (mergedItems items).reverse :: stack)
  | object {ls stack} (h : Open ls stack) (members : List (String × Json)) (key : String) :
      Open (ls ++ .mark '\x7b' :: (writtenMembers members ++ [.string key, .mark ':']))
        (.object (mergedMembers [] members) key :: stack)

/-- These are the lexemes in front of the place. -/
inductive Behind : List Lexeme → Place → Prop
  | value {ls stack} (h : Open ls stack) : Behind ls ⟨stack, .value⟩
  | firstItem {ls stack} (h : Open ls stack) : Behind (ls ++ [.mark '[']) ⟨stack, .firstItem⟩
  | nextItem {ls stack} (h : Open ls stack) : Behind ls ⟨stack, .nextItem⟩
  | firstKey {ls stack} (h : Open ls stack) :
      Behind (ls ++ [.mark '\x7b']) ⟨stack, .firstKey⟩
  | nextKey {ls stack} (h : Open ls stack) (members : List (String × Json)) :
      Behind (ls ++ .mark '\x7b' :: writtenMembers members)
        ⟨stack, .nextKey (mergedMembers [] members)⟩
  | key {ls stack} (h : Open ls stack) (members : List (String × Json)) (p : PartialString) :
      Behind (ls ++ .mark '\x7b' :: writtenMembers members)
        ⟨stack, .key (mergedMembers [] members) p⟩
  | colon {ls stack} (h : Open ls stack) (members : List (String × Json)) (key : String) :
      Behind (ls ++ .mark '\x7b' :: (writtenMembers members ++ [.string key]))
        ⟨stack, .colon (mergedMembers [] members) key⟩
  | after {ls stack} (h : Open ls stack) (j : Json) :
      Behind (ls ++ j.written) ⟨stack, .after j.merged⟩
  | word {ls stack} (h : Open ls stack) (j : Json) (next : Char) (rest : List Char)
      (hscalar : j.written = []) (hplain : ∀ c ∈ next :: rest, isPlain c = true) :
      Behind ls ⟨stack, .word next rest j.merged⟩
  | number {ls stack} (h : Open ls stack) (n : PartialNumeral) : Behind ls ⟨stack, .number n⟩
  | string {ls stack} (h : Open ls stack) (p : PartialString) : Behind ls ⟨stack, .string p⟩

/-! ## One character -/

/-- A character completes these lexemes. -/
def Completes (a : Option PartialString) (c : Char) (more : List Lexeme)
    (b : Option PartialString) : Prop :=
  ∀ rest, lexemesFrom a (c :: rest) = more ++ lexemesFrom b rest

section
variable {c : Char}

theorem completes_quote : Completes none '\"' [] (some .empty) := by
  intro rest
  rw [lexemesFrom, if_pos rfl, List.nil_append]

theorem completes_mark (h : isMark c = true) : Completes none c [.mark c] none := by
  intro rest
  have hquote : c ≠ '\"' := by
    rintro rfl
    cases h
  rw [lexemesFrom, if_neg hquote, if_pos h, List.singleton_append]

theorem completes_plain (h : isPlain c = true) : Completes none c [] none := by
  intro rest
  obtain ⟨hquote, hmark⟩ : c ≠ '\"' ∧ isMark c = false := by simpa [isPlain] using h
  rw [lexemesFrom, if_neg hquote, if_neg (by simp [hmark]), List.nil_append]

theorem completes_more {p p' : PartialString} (h : p.step c = .more p') :
    Completes (some p) c [] (some p') := by
  intro rest
  rw [lexemesFrom, h, List.nil_append]

theorem completes_over {p : PartialString} {s : String} (h : p.step c = .over s) :
    Completes (some p) c [.string s] none := by
  intro rest
  rw [lexemesFrom, h, List.singleton_append]

end

/-- A character leads from one place to another, and the invariant with it. -/
def Carries (ls : List Lexeme) (a : Option PartialString) (c : Char) (b : Place) : Prop :=
  ∃ more, Behind (ls ++ more) b ∧ Completes a c more b.partial?

namespace Carries
variable {ls : List Lexeme} {a : Option PartialString} {c : Char} {b : Place}

theorem of_nothing (h : Behind ls b) (hc : Completes a c [] b.partial?) : Carries ls a c b :=
  ⟨[], by rwa [List.append_nil], hc⟩

end Carries

lemma blank_plain {c : Char} (h : Place.isBlank c = true) : isPlain c = true := by
  simp only [Place.isBlank, Bool.or_eq_true, decide_eq_true_eq] at h
  rcases h with ((rfl | rfl) | rfl) | rfl <;> rfl

lemma digit?_plain {c : Char} {d : Nat} (h : PartialNumeral.digit? c = some d) :
    isPlain c = true := by
  unfold PartialNumeral.digit? at h
  split_ifs at h with hc
  by_contra hplain
  simp only [isPlain, isMark, Bool.not_eq_true', Bool.not_eq_false, Bool.or_eq_true,
    decide_eq_true_eq] at hplain
  rcases hplain with rfl | (((rfl | rfl) | rfl) | rfl) | rfl <;> exact absurd hc (by decide)

lemma afterDigits_plain {n : Numeral} {pointAllowed : Bool} {c : Char} {p : PartialNumeral}
    (h : PartialNumeral.afterDigits n pointAllowed c = .more p) : isPlain c = true := by
  unfold PartialNumeral.afterDigits at h
  split_ifs at h with hpoint hmark
  · obtain ⟨rfl, -⟩ := hpoint
    rfl
  · rcases hmark with rfl | rfl <;> rfl

/-- No mark and no quote belongs to a number. -/
theorem numeral_plain {p p' : PartialNumeral} {c : Char} (h : p.step c = .more p') :
    isPlain c = true := by
  cases hdigit : PartialNumeral.digit? c with
  | some d => exact digit?_plain hdigit
  | none =>
    unfold PartialNumeral.step at h
    rw [hdigit] at h
    cases hstage : p.stage <;> simp only [hstage] at h <;>
      first | exact afterDigits_plain h | cases h | skip
    split_ifs at h with hplus hminus
    · subst hplus
      rfl
    · subst hminus
      rfl

lemma start?_plain {c : Char} {n : PartialNumeral} (h : PartialNumeral.start? c = some n) :
    isPlain c = true := by
  unfold PartialNumeral.start? at h
  split_ifs at h with hminus
  · subst hminus
    rfl
  · obtain ⟨d, hd, -⟩ := Option.map_eq_some_iff.1 h
    exact digit?_plain hd

section
variable {ls : List Lexeme} {stack : List Frame} {c : Char} {b : Place}

theorem Open.beginValue (h : Open ls stack) (hc : Place.beginValue stack c = .ok b) :
    Carries ls none c b := by
  unfold Place.beginValue at hc
  split_ifs at hc with hquote hbracket hbrace hn ht hf
  · cases hc
    subst hquote
    exact .of_nothing (.string h .empty) completes_quote
  · cases hc
    subst hbracket
    exact ⟨_, .firstItem h, completes_mark rfl⟩
  · cases hc
    subst hbrace
    exact ⟨_, .firstKey h, completes_mark rfl⟩
  · cases hc
    subst hn
    exact .of_nothing (.word h .null _ _ rfl (by decide)) (completes_plain (by decide))
  · cases hc
    subst ht
    exact .of_nothing (.word h (.bool true) _ _ rfl (by decide)) (completes_plain (by decide))
  · cases hc
    subst hf
    exact .of_nothing (.word h (.bool false) _ _ rfl (by decide)) (completes_plain (by decide))
  · cases hstart : PartialNumeral.start? c with
    | none => rw [hstart] at hc; cases hc
    | some n =>
      rw [hstart] at hc
      cases hc
      exact .of_nothing (.number h n) (completes_plain (start?_plain hstart))

theorem Open.afterValue (h : Open ls stack) {j : Json}
    (hc : Place.afterValue j.merged c stack = .ok b) : Carries (ls ++ j.written) none c b := by
  cases h with
  | document => cases hc
  | @array ls stack h items =>
    have hopen := h.array (items ++ [j])
    rw [writtenItems_concat, mergedItems_concat, List.reverse_concat] at hopen
    rw [Place.afterValue] at hc
    split_ifs at hc with hcomma hbracket
    · cases hc
      subst hcomma
      refine .of_nothing ?_ (completes_plain (by decide))
      simpa using Behind.nextItem hopen
    · cases hc
      subst hbracket
      refine ⟨[.mark ']'], ?_, completes_mark rfl⟩
      have hafter := Behind.after h (.array (items ++ [j]))
      simpa [merged, written, writtenItems_concat, mergedItems_concat] using hafter
  | @object ls stack h members key =>
    rw [Place.afterValue] at hc
    split_ifs at hc with hcomma hbrace
    · cases hc
      subst hcomma
      refine .of_nothing ?_ (completes_plain (by decide))
      have hnext := Behind.nextKey h (members ++ [(key, j)])
      simpa [writtenMembers_concat, mergedMembers_concat] using hnext
    · cases hc
      subst hbrace
      refine ⟨[.mark '\x7d'], ?_, completes_mark rfl⟩
      have hafter := Behind.after h (.object (members ++ [(key, j)]))
      simpa [merged, written, writtenMembers_concat, mergedMembers_concat] using hafter

/-- A character between the tokens. -/
theorem Behind.between {phase : Phase} (hphase : phase.skipsBlanks = true)
    (h : Behind ls ⟨stack, phase⟩) (hc : Place.between stack phase c = .ok b) :
    Carries ls none c b := by
  unfold Place.between at hc
  by_cases hblank : Place.isBlank c = true
  · rw [if_pos hblank] at hc
    cases hc
    have hnone : (Place.mk stack phase).partial? = none := by
      cases phase <;> first | rfl | cases hphase
    refine .of_nothing h ?_
    rw [hnone]
    exact completes_plain (blank_plain hblank)
  · rw [if_neg hblank] at hc
    cases h with
    | value h => exact h.beginValue hc
    | @firstItem ls _ h =>
      dsimp only at hc
      split_ifs at hc with hbracket
      · cases hc
        subst hbracket
        refine ⟨[.mark ']'], ?_, completes_mark rfl⟩
        have hafter := Behind.after h (.array [])
        simpa [merged, written, mergedItems, writtenItems] using hafter
      · exact (h.array []).beginValue hc
    | nextItem h =>
      dsimp only at hc
      split_ifs at hc
      exact h.beginValue hc
    | @firstKey ls _ h =>
      dsimp only at hc
      split_ifs at hc with hbrace hquote
      · cases hc
        subst hbrace
        refine ⟨[.mark '\x7d'], ?_, completes_mark rfl⟩
        have hafter := Behind.after h (.object [])
        simpa [merged, written, mergedMembers, writtenMembers] using hafter
      · cases hc
        subst hquote
        exact .of_nothing (.key h [] .empty) completes_quote
    | nextKey h members =>
      dsimp only at hc
      split_ifs at hc with hbrace hquote
      cases hc
      subst hquote
      exact .of_nothing (.key h members .empty) completes_quote
    | @colon ls _ h members key =>
      dsimp only at hc
      split_ifs at hc with hcolon
      cases hc
      subst hcolon
      refine ⟨[.mark ':'], ?_, completes_mark rfl⟩
      have hvalue := Behind.value (h.object members key)
      simpa using hvalue
    | after h j => exact h.afterValue hc
    | key | word | number | string => cases hphase

theorem tell_eq_ok_iff {A : Type} {offset : Nat} {result : Except Problem A} {a : A} :
    State.tell offset result = .ok a ↔ result = .ok a := by
  cases result <;> simp [State.tell]

/-- A character keeps the invariant. -/
theorem Behind.move {a : Place} {offset : Nat} (h : Behind ls a)
    (hc : (State.mk offset a).move c = .ok b) : Carries ls a.partial? c b := by
  have hbetween : ∀ {stack phase}, a = ⟨stack, phase⟩ → phase.skipsBlanks = true →
      Carries ls none c b := by
    rintro stack phase rfl hphase
    rw [move_between hphase, tell_eq_ok_iff] at hc
    exact h.between hphase hc
  cases h with
  | value | firstItem | nextItem | firstKey | nextKey | colon | after =>
    exact hbetween rfl rfl
  | @key ls stack h members p =>
    rw [State.move] at hc
    dsimp only at hc
    cases hstep : p.step c with
    | more p' =>
      rw [hstep] at hc
      cases hc
      exact .of_nothing (.key h members p') (completes_more hstep)
    | «over» key =>
      rw [hstep] at hc
      cases hc
      refine ⟨[.string key], ?_, completes_over hstep⟩
      simpa using Behind.colon h members key
    | refused => rw [hstep] at hc; cases hc
  | string h p =>
    rw [State.move] at hc
    dsimp only at hc
    cases hstep : p.step c with
    | more p' =>
      rw [hstep] at hc
      cases hc
      exact .of_nothing (.string h p') (completes_more hstep)
    | «over» s =>
      rw [hstep] at hc
      cases hc
      exact ⟨[.string s], .after h (.string s), completes_over hstep⟩
    | refused => rw [hstep] at hc; cases hc
  | word h j next rest hscalar hplain =>
    rw [State.move] at hc
    dsimp only at hc
    obtain ⟨hnext, hrest⟩ := List.forall_mem_cons.1 hplain
    by_cases heq : c = next
    · subst heq
      rw [if_pos rfl] at hc
      cases rest with
      | nil =>
        cases hc
        refine ⟨[], ?_, completes_plain hnext⟩
        rw [← hscalar]
        exact .after h j
      | cons next rest =>
        cases hc
        exact .of_nothing (.word h j next rest hscalar hrest) (completes_plain hnext)
    · rw [if_neg heq] at hc
      cases hc
  | number h n =>
    rw [State.move] at hc
    dsimp only at hc
    cases hstep : n.step c with
    | more n' =>
      rw [hstep] at hc
      cases hc
      exact .of_nothing (.number h n') (completes_plain (numeral_plain hstep))
    | «over» =>
      rw [hstep] at hc
      dsimp only at hc
      cases hfinish : n.finish with
      | ok n =>
        rw [hfinish] at hc
        have hafter := Behind.after h (.number n)
        rw [written, List.append_nil] at hafter
        exact hafter.between rfl (tell_eq_ok_iff.1 hc)
      | error problem => rw [hfinish] at hc; cases hc
    | refused => rw [hstep] at hc; cases hc

end

/-! ## A whole text -/

/-- A run of the reader keeps the invariant, and reads the lexemes of its text. -/
theorem Behind.run {ls : List Lexeme} {state state' : State} {s : List Char}
    (h : Behind ls state.place) (hrun : state.run s = .ok state') :
    Behind (ls ++ lexemesFrom state.place.partial? s) state'.place := by
  induction s generalizing ls state with
  | nil =>
    cases hrun
    simpa [lexemesFrom] using h
  | cons c s ih =>
    rw [State.run, List.foldlM_cons, State.step] at hrun
    cases hmove : state.move c with
    | error fault => rw [hmove] at hrun; cases hrun
    | ok b =>
      rw [hmove] at hrun
      obtain ⟨more, hbehind, hcompletes⟩ := h.move hmove
      rw [hcompletes, ← List.append_assoc]
      exact ih hbehind hrun

/-- At the end there is one value, and nothing else. -/
theorem Behind.finish {ls : List Lexeme} {state : State} {j : Json}
    (h : Behind ls state.place) (hfinish : state.finish = .ok j) :
    ∃ w : Json, w.merged = j ∧ ls = w.written := by
  have hafter : ∀ {ls stack} {w : Json}, Open ls stack →
      Place.endAfter w.merged stack = .ok j →
      ∃ w' : Json, w'.merged = j ∧ ls ++ w.written = w'.written := by
    intro ls stack w hopen hend
    cases hopen with
    | document => exact ⟨w, Except.ok.inj hend, rfl⟩
    | array | object => cases hend
  obtain ⟨offset, place⟩ := state
  rw [State.finish, tell_eq_ok_iff] at hfinish
  cases h with
  | after h w => exact hafter h hfinish
  | number h n =>
    dsimp only at hfinish
    cases hnumber : n.finish with
    | error problem => rw [hnumber] at hfinish; cases hfinish
    | ok number =>
      rw [hnumber] at hfinish
      obtain ⟨w, hw, heq⟩ := hafter (w := .number number) h hfinish
      exact ⟨w, hw, by rw [← heq, written, List.append_nil]⟩
  | value | firstItem | nextItem | firstKey | nextKey | key | colon | word | string =>
    cases hfinish

/-- The lexemes of a document are those of a value that is written in it, and the document is
read as what is kept of this value. -/
theorem exists_written_of_read {text : List Char} {j : Json} (h : read text = .ok j) :
    ∃ w : Json, w.merged = j ∧ lexemes text = w.written := by
  rw [read] at h
  cases hrun : State.start.run text with
  | error fault => rw [hrun] at h; cases h
  | ok state =>
    rw [hrun] at h
    exact ((Behind.value .document).run hrun).finish h

end CTree.Json
