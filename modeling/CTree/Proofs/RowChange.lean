import CTree.Proofs.GapChange
import CTree.Proofs.WordRow

/-!
# Words in front of another text

The words at the beginning of a text are its words still when the text behind them
changes. The new text must not go on with the last word or gap, and it must not close a
comment that was left open: a slash in front of a star is a word only where nothing
behind it closes the comment.
-/
namespace CTree.Lexical
open Pattern

/-- A character by which a token, a gap or the mark of a comment may go on. -/
def isSticky (c : Char) : Bool := isJoint c || isGlue c || c = '*' || c = '/'

lemma outside_of_sticky {K : Char → Bool} {s : List Char} (h : Outside isSticky s)
    (hK : ∀ c, K c = true → isSticky c = true) : Outside K s := by
  intro c hc
  by_contra hin
  have hsticky := hK c (by simpa using hin)
  rw [h c hc] at hsticky
  cases hsticky

/-- A character by which a token or the mark of a comment may go on. -/
def isKnit (c : Char) : Bool := isJoint c || c = '*' || c = '/'

lemma outside_isKnit_of_sticky {s : List Char} (h : Outside isSticky s) : Outside isKnit s := by
  refine outside_of_sticky h fun c hc => ?_
  simp only [isKnit, isSticky, Bool.or_eq_true] at hc ⊢
  tauto

lemma outside_isJoint_of_knit {s : List Char} (h : Outside isKnit s) : Outside isJoint s := by
  intro c hc
  have hknit := h c hc
  simp only [isKnit, Bool.or_eq_false_iff] at hknit
  exact hknit.1.1

lemma outside_isGlue_of_sticky {s : List Char} (h : Outside isSticky s) : Outside isGlue s :=
  outside_of_sticky h fun c hc => by simp [isSticky, hc]

lemma outside_isGlue_of_solid {s : List Char} (h : ∀ c ∈ s.head?, isSolid c = true ∧ c ≠ '\\') :
    Outside isGlue s := by
  intro c hc
  obtain ⟨hsolid, hback⟩ := h c hc
  by_contra hglue
  have hmem : c ∈ " \t\r\n\\".toList := by
    rw [← List.contains_iff_mem]
    simpa only [Bool.not_eq_false, isGlue] using hglue
  have hall : ∀ c ∈ " \t\r\n\\".toList, isSolid c = false ∨ c = '\\' := by decide
  rcases hall c hmem with h | h
  · rw [h] at hsolid
    cases hsolid
  · exact hback h

lemma outside_isGlue_of_mayBegin {t : Token} {c : Char} (h : t.mayBegin c = true)
    (s : List Char) : Outside isGlue (c :: s) := by
  obtain ⟨hsolid, hback⟩ := solid_of_mayBegin h
  refine outside_isGlue_of_solid fun d hd => ?_
  obtain rfl : c = d := by simpa using hd
  exact ⟨hsolid, fun h => hback (by simp [h])⟩

lemma IsTokenText.head {u : List Char} (h : IsTokenText u) :
    ∃ c r, u = c :: r ∧ ∃ t : Token, t.mayBegin c = true := by
  obtain ⟨t, ht, hu⟩ := h
  obtain ⟨c, r, hs, hc⟩ := head_of_width? ht hu
  exact ⟨c, r, hs, t, hc⟩

/-- Whatever is closed in front of the new text was closed in front of the old one. -/
def ClosesNoMore (old new : List Char) : Prop :=
  ∀ s, ['*', '/'] <:+: s ++ new → ['*', '/'] <:+: s ++ old

/-- A mark that closes a comment does not go over another character. -/
lemma closed_of_closed_append {d : Char} (hd : d ∉ ['*', '/']) {s r : List Char}
    (h : ['*', '/'] <:+: s ++ d :: r) : ['*', '/'] <:+: s ∨ ['*', '/'] <:+: r := by
  induction s with
  | nil =>
    rcases List.infix_cons_iff.1 h with ⟨t, ht⟩ | h
    · obtain ⟨rfl, -⟩ := List.cons.inj ht
      exact absurd (by decide) hd
    · exact .inr h
  | cons c s ih =>
    rcases List.infix_cons_iff.1 h with ⟨t, ht⟩ | h
    · obtain ⟨rfl, hmore⟩ := List.cons.inj ht
      cases s with
      | nil =>
        obtain ⟨rfl, -⟩ := List.cons.inj hmore
        exact absurd (by decide) hd
      | cons e s =>
        obtain ⟨rfl, -⟩ := List.cons.inj hmore
        exact .inl ⟨[], s, rfl⟩
    · exact (ih h).imp_left List.infix_cons

theorem closesNoMore_nil {s : List Char} : ClosesNoMore s [] := by
  intro t ht
  rw [List.append_nil] at ht
  exact ht.trans (List.prefix_append t s).isInfix

/-- Behind a mark that no comment ends with, a comment is closed only further on. -/
theorem closesNoMore_cons {d : Char} {s : List Char} (hd : d ∉ ['*', '/'])
    (h : ¬ ['*', '/'] <:+: s) : ClosesNoMore [] (d :: s) := by
  intro t ht
  rw [List.append_nil]
  exact (closed_of_closed_append hd ht).resolve_right h

/-- What is no gap is none when the text further on changes. -/
lemma gapWidth_eq_zero_change {t : Token} {c : Char} {r old new : List Char}
    (hc : t.mayBegin c = true) (h : gapWidth (c :: (r ++ old)) = 0) (hnew : Outside isKnit new)
    (hclose : (∃ r', c :: r = '/' :: '*' :: r') → ClosesNoMore old new) :
    gapWidth (c :: (r ++ new)) = 0 := by
  by_cases hslash : c = '/'
  · subst hslash
    cases r with
    | nil =>
      refine gapWidth_slash fun d hd => ?_
      have hknit := hnew d hd
      constructor
      · rintro rfl
        cases hknit
      · rintro rfl
        cases hknit
    | cons d r =>
      by_cases hstar : d = '*'
      · subst hstar
        rw [List.cons_append, gapWidth_open_eq_zero_iff] at h ⊢
        exact fun hin => h (hclose ⟨r, rfl⟩ r hin)
      · refine gapWidth_slash fun e he => ?_
        obtain rfl : d = e := by simpa using he
        refine ⟨hstar, ?_⟩
        rintro rfl
        -- Two slashes would have been a comment.
        have hcomment := (gapWidth_eq_zero_iff.1 h).2
        obtain ⟨-, hline⟩ := width?_alt_eq_none.1 hcomment
        rcases width?_seq_eq_none.1 (width?_alt_eq_none.1 hline).1 with hno | ⟨n, -, hmany⟩
        · exact absurd ⟨r ++ old, rfl⟩ (width?_word_eq_none.1 hno)
        · exact absurd hmany (total_many _ _)
  · exact gapWidth_eq_zero_of_mayBegin hc hslash _

/-- The only token in front of a star that begins with a slash is the slash. -/
theorem width?_slash_star {t : Token} {s : List Char} {n : Nat} (ht : t ≠ .endOfInput)
    (h : t.width? ('/' :: '*' :: s) = some n) : n = 1 := by
  have hall : ∀ p ∈ Punctuator.all, p.text.toList.head? = some '/' → p = .div ∨ p = .divAssign := by
    decide
  obtain ⟨c, r, hs, hc⟩ := head_of_width? ht h
  obtain ⟨rfl, rfl⟩ := List.cons.inj hs
  obtain ⟨p, rfl, hp⟩ := exists_punctuator hc rfl (by decide)
  obtain ⟨hpre, rfl, -⟩ := width?_punctuator_eq_some.1 h
  rcases hall p p.mem_all hp with rfl | rfl
  · rfl
  · obtain ⟨r, hr⟩ := hpre
    cases hr

/-- No gap begins with a token, whatever follows that does not go on with it. -/
theorem IsTokenText.gapWidth_append_of_knit {u s : List Char} (h : IsTokenText u)
    (hs : Outside isKnit s) : gapWidth (u ++ s) = 0 := by
  have halone := h.gapWidth_append (outside_nil isSolid)
  obtain ⟨t, ht, hwidth⟩ := h
  obtain ⟨c, r, rfl, hc⟩ := head_of_width? ht hwidth
  refine gapWidth_eq_zero_change hc halone hs ?_
  rintro ⟨r', hslash⟩
  rw [hslash] at hwidth
  cases width?_slash_star ht hwidth

end CTree.Lexical

namespace CTree.Parse
open CTree.Grammar CTree.Lexical CTree.Lexical.Pattern CTree.Text

/-- Two words that stand together and look like the mark that opens a comment. -/
structure Leaf.Opens (a b : Leaf) : Prop where
  slash : a.text = ['/']
  star : b.text.head? = some '*'
  next : b.start = a.start + 1

/-- No word stands where a mark is that opens a comment. -/
def Unopened : List (List Char) → List Char → Prop
  | [], _ => True
  | u :: words, s =>
    ¬ ['/', '*'] <+: s.drop (gapWidth s) ∧ Unopened words ((s.drop (gapWidth s)).drop u.length)

theorem unopened_drop_gapWidth_iff {words : List (List Char)} {s : List Char} :
    Unopened words (s.drop (gapWidth s)) ↔ Unopened words s := by
  cases words with
  | nil => rfl
  | cons u words => rw [Unopened, Unopened, gapWidth_drop_gapWidth, List.drop_zero]

theorem Unopened.of_append {words more : List (List Char)} {s : List Char}
    (h : Unopened (words ++ more) s) : Unopened words s := by
  induction words generalizing s with
  | nil => trivial
  | cons u words ih => exact ⟨h.1, ih h.2⟩

theorem Passes.unopened {here stop : Cursor} {words : List Leaf} (h : Passes here words stop)
    (hend : (skipGap stop).rest = []) (hchain : words.IsChain fun a b => ¬ a.Opens b) :
    Unopened (words.map (·.text)) here.rest := by
  induction h with
  | stay => trivial
  | @skip here _ _ _ ih =>
    have hrest := ih hend hchain
    rw [skipGap_rest] at hrest
    exact unopened_drop_gapWidth_iff.1 hrest
  | @word here t n words stop hgap ht hn hrest ih =>
    have hmore := ih hend hchain.tail
    have hle := Pattern.width?_le_length hn
    rw [Cursor.advance_rest] at hmore
    rw [List.map_cons, Unopened, hgap, List.drop_zero, List.length_take, Nat.min_eq_left hle]
    refine ⟨?_, hmore⟩
    rintro ⟨r, hr⟩
    obtain ⟨offset, s⟩ := here
    obtain rfl : '/' :: '*' :: r = s := hr
    obtain rfl := width?_slash_star ht hn
    have hstar : skipGap ⟨offset + 1, '*' :: r⟩ = ⟨offset + 1, '*' :: r⟩ :=
      skipGap_of_gapWidth (gapWidth_eq_zero_of_head rfl (by decide) r)
    cases words with
    | nil =>
      have hskip : skipGap stop = skipGap ⟨offset + 1, '*' :: r⟩ := hrest.nothing
      rw [hskip, hstar] at hend
      cases hend
    | cons b words =>
      obtain ⟨k, hk, hstart, htext, -⟩ := hrest.next
      change b.token.width? (skipGap ⟨offset + 1, '*' :: r⟩).rest = some k at hk
      change b.start = (skipGap ⟨offset + 1, '*' :: r⟩).offset at hstart
      change b.text = (skipGap ⟨offset + 1, '*' :: r⟩).rest.take k at htext
      rw [hstar] at hk hstart htext
      have hpos := consuming_pattern (hrest.token_ne b List.mem_cons_self) _ _ hk
      refine hchain.rel ⟨rfl, ?_, hstart⟩
      rw [htext]
      cases k with
      | zero => exact absurd hpos (Nat.lt_irrefl 0)
      | succ k => rfl

/-- The words of a text up to a place are words in front of another text too. -/
theorem RowTo.change {middle old new : List Char} {words : List (List Char)} {s : List Char}
    (h : RowTo (middle ++ old) words s) (hne : middle ++ old ≠ [])
    (hglue : Outside isGlue (middle ++ old)) (hglue' : Outside isGlue (middle ++ new))
    (hnew : Outside isKnit new) (hgap : gapWidth (middle ++ new) = 0)
    (hclose : Unopened words s ∨ ClosesNoMore old new) :
    ∃ before, s = before ++ (middle ++ old) ∧
      RowTo (middle ++ new) words (before ++ (middle ++ new)) := by
  -- The gap in front of what changes is skipped in front of what it changes to.
  have hskip : ∀ {s y z : List Char}, s.drop (gapWidth s) = y → y ≠ [] → Outside isGlue y →
      Outside isGlue z → gapWidth z = 0 →
      (s.take (gapWidth s) ++ z).drop (gapWidth (s.take (gapWidth s) ++ z)) = z := by
    intro s y z hy hne hglue hz hzero
    have hle := gapWidth_le_length s
    have hold : gapWidth (s.take (gapWidth s) ++ y) = (s.take (gapWidth s)).length := by
      rw [← hy, List.take_append_drop, List.length_take, Nat.min_eq_left hle]
    rw [gapWidth_change hold hne hglue hz, hzero, Nat.add_zero, List.drop_left]
  induction h with
  | @done s hend =>
    refine ⟨s.take (gapWidth s), ?_, .done ?_⟩
    · rw [← hend, List.take_append_drop]
    · exact hskip hend hne hglue hglue' hgap
  | @word s u v words hs hu hrest ih =>
    have hclose' : Unopened words v ∨ ClosesNoMore old new := by
      refine hclose.imp_left fun h => ?_
      have hmore := h.2
      rwa [hs, List.drop_left] at hmore
    obtain ⟨before, rfl, hrow⟩ := ih hclose'
    obtain ⟨c, r, rfl, t, hc⟩ := hu.isTokenText.head
    have hhead : ∀ w, Outside isGlue (c :: r ++ w) :=
      fun w => outside_isGlue_of_mayBegin hc (r ++ w)
    have hold : gapWidth (c :: (r ++ (before ++ middle) ++ old)) = 0 := by
      have hzero := gapWidth_drop_gapWidth s
      rw [hs] at hzero
      simpa using hzero
    have hnew' : gapWidth (c :: r ++ (before ++ (middle ++ new))) = 0 := by
      have hzero := gapWidth_eq_zero_change hc hold hnew ?_
      · simpa using hzero
      · rintro ⟨r', hr'⟩
        refine hclose.resolve_left fun h => h.1 ⟨r' ++ old, ?_⟩
        calc ['/', '*'] ++ (r' ++ old) = c :: (r ++ (before ++ middle)) ++ old := by rw [hr']; rfl
          _ = s.drop (gapWidth s) := by rw [hs]; simp
    have hstands : Stands (c :: r) (before ++ (middle ++ new)) := by
      have hchange := Stands.change (a := before ++ middle) (by simpa using hu)
        (outside_isJoint_of_knit hnew)
      simpa using hchange
    refine ⟨s.take (gapWidth s) ++ (c :: r ++ before), ?_, .word ?_ hstands hrow⟩
    · calc s = s.take (gapWidth s) ++ s.drop (gapWidth s) := (List.take_append_drop _ _).symm
        _ = s.take (gapWidth s) ++ (c :: r ++ before) ++ (middle ++ old) := by rw [hs]; simp
    · have hdrop := hskip hs (by simp) (hhead _) (hhead _) hnew'
      simpa using hdrop

end CTree.Parse
