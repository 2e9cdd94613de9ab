import CTree.Proofs.GapChange
import CTree.Proofs.LayoutIndependence

/-!
# Lines that end with two characters

A line may end with a line feed, or with a carriage return and a line feed. In the gaps
of a source the two are the same, and no token but a literal reaches over the end of a
line. A literal does so behind a backslash, which takes *one* character with it: from a
line end of two characters it leaves the second one, where no literal goes on.

So a source is accepted with either line ends and has the same tree, unless one of its
literals goes over the end of a line.
-/
namespace CTree.Lexical
open Pattern

/-- The text with a carriage return in front of every line feed. -/
def crlf (s : List Char) : List Char := s.flatMap fun c => if c = '\n' then ['\r', '\n'] else [c]

@[simp] theorem crlf_nil : crlf [] = [] := rfl

@[simp] theorem crlf_append (s t : List Char) : crlf (s ++ t) = crlf s ++ crlf t :=
  List.flatMap_append

theorem crlf_lineFeed (s : List Char) : crlf ('\n' :: s) = '\r' :: '\n' :: crlf s := rfl

theorem crlf_cons {c : Char} (h : c ≠ '\n') (s : List Char) : crlf (c :: s) = c :: crlf s := by
  simp [crlf, h]

/-- A text of one line stays as it is. -/
theorem crlf_eq_self {s : List Char} (h : '\n' ∉ s) : crlf s = s := by
  induction s with
  | nil => rfl
  | cons c s ih =>
    rw [List.mem_cons, not_or] at h
    rw [crlf_cons (Ne.symm h.1), ih h.2]

theorem drop_crlf (s : List Char) (n : Nat) :
    (crlf s).drop (crlf (s.take n)).length = crlf (s.drop n) := by
  have hsplit : crlf s = crlf (s.take n) ++ crlf (s.drop n) := by
    rw [← crlf_append, List.take_append_drop]
  rw [hsplit, List.drop_left]

/-- What stands in front of a text of one line stands in front of the rest. -/
theorem exists_of_crlf_eq_append {s u v : List Char} (h : crlf s = u ++ v)
    (hu : ∀ c ∈ u, isLineEnd c = false) : ∃ r, s = u ++ r ∧ v = crlf r := by
  induction u generalizing s with
  | nil => exact ⟨s, rfl, h.symm⟩
  | cons c u ih =>
    obtain ⟨hc, hline⟩ := List.forall_mem_cons.1 hu
    cases s with
    | nil => cases h
    | cons d s =>
      by_cases hd : d = '\n'
      · subst hd
        obtain ⟨rfl, -⟩ := List.cons.inj h
        cases hc
      · rw [crlf_cons hd] at h
        obtain ⟨rfl, hrest⟩ := List.cons.inj h
        obtain ⟨r, rfl, hv⟩ := ih hrest hline
        exact ⟨r, rfl, hv⟩

/-! ## Patterns that do not see how lines end -/

/-- From a text with the one or the other line ends the pattern takes the same. -/
structure BlindAt (p : Pattern) (s : List Char) : Prop where
  width?_crlf : p.width? (crlf s) = (p.width? s).map fun n => (crlf (s.take n)).length

def LineBlind (p : Pattern) : Prop := ∀ s, '\r' ∉ s → BlindAt p s

lemma not_mem_drop {c : Char} {s : List Char} (h : c ∉ s) (n : Nat) : c ∉ s.drop n :=
  fun hc => h (List.mem_of_mem_drop hc)

section
variable {p q : Pattern} {s : List Char}

lemma blindAt_of_none (h : p.width? s = none) (h' : p.width? (crlf s) = none) : BlindAt p s := by
  refine ⟨?_⟩
  rw [h, h']
  rfl

lemma blindAt_of_some {n : Nat} (h : p.width? s = some n)
    (h' : p.width? (crlf s) = some (crlf (s.take n)).length) : BlindAt p s := by
  refine ⟨?_⟩
  rw [h, h']
  rfl

lemma BlindAt.seq (hp : BlindAt p s) (hq : ∀ n, p.width? s = some n → BlindAt q (s.drop n)) :
    BlindAt (.seq p q) s := by
  obtain ⟨hp⟩ := hp
  cases ha : p.width? s with
  | none =>
    rw [ha] at hp
    exact blindAt_of_none (width?_seq_eq_none.2 (.inl ha)) (width?_seq_eq_none.2 (.inl hp))
  | some a =>
    rw [ha, Option.map_some] at hp
    obtain ⟨hrest⟩ := hq a ha
    cases hb : q.width? (s.drop a) with
    | none =>
      rw [hb] at hrest
      refine blindAt_of_none (width?_seq_eq_none.2 (.inr ⟨a, ha, hb⟩)) ?_
      exact width?_seq_eq_none.2 (.inr ⟨_, hp, by rw [drop_crlf, hrest]; rfl⟩)
    | some b =>
      rw [hb, Option.map_some] at hrest
      refine blindAt_of_some (width?_seq_eq_some.2 ⟨a, b, ha, hb, rfl⟩) ?_
      refine width?_seq_eq_some.2 ⟨_, _, hp, by rw [drop_crlf, hrest], ?_⟩
      rw [List.take_add, crlf_append, List.length_append]

lemma BlindAt.alt (hp : BlindAt p s) (hq : BlindAt q s) : BlindAt (.alt p q) s := by
  refine ⟨?_⟩
  rw [width?_alt, width?_alt, hp.width?_crlf, hq.width?_crlf]
  cases p.width? s <;> rfl

lemma BlindAt.absent (hp : BlindAt p s) : BlindAt (.absent p) s := by
  refine ⟨?_⟩
  rw [width?_absent, width?_absent, hp.width?_crlf, Option.isSome_map]
  split_ifs <;> simp

lemma blindAt_one (f : Char → Bool) (hs : s.head? ≠ some '\n') : BlindAt (.one f) s := by
  cases s with
  | nil => exact ⟨rfl⟩
  | cons c s =>
    have hc : c ≠ '\n' := fun h => hs (by rw [h]; rfl)
    refine ⟨?_⟩
    rw [crlf_cons hc, width?_one_cons, width?_one_cons]
    split_ifs
    · simp [crlf_cons hc]
    · rfl

theorem lineBlind_one {f : Char → Bool} (hf : f '\n' = false) (hf' : f '\r' = false) :
    LineBlind (.one f) := by
  intro s _
  cases s with
  | nil => exact ⟨rfl⟩
  | cons c s =>
    by_cases hc : c = '\n'
    · subst hc
      exact blindAt_of_none (by simp [hf]) (by simp [crlf_lineFeed, hf'])
    · exact blindAt_one f fun h => hc (Option.some.inj h)

theorem lineBlind_word {text : List Char} (h : ∀ c ∈ text, isLineEnd c = false) :
    LineBlind (.word text) := by
  intro s _
  have hself : crlf text = text := crlf_eq_self fun hmem => by cases h _ hmem
  by_cases hpre : text <+: s
  · obtain ⟨r, rfl⟩ := hpre
    refine blindAt_of_some (width?_word_eq_some.2 ⟨List.prefix_append text r, rfl⟩) ?_
    rw [List.take_left, crlf_append, hself]
    exact width?_word_eq_some.2 ⟨List.prefix_append text _, rfl⟩
  · refine blindAt_of_none (width?_word_eq_none.2 hpre) (width?_word_eq_none.2 ?_)
    rintro ⟨v, hv⟩
    obtain ⟨r, rfl, -⟩ := exists_of_crlf_eq_append hv.symm h
    exact hpre (List.prefix_append text r)

theorem LineBlind.seq (hp : LineBlind p) (hq : LineBlind q) : LineBlind (.seq p q) :=
  fun s hs => (hp s hs).seq fun n _ => hq _ (not_mem_drop hs n)

theorem LineBlind.alt (hp : LineBlind p) (hq : LineBlind q) : LineBlind (.alt p q) :=
  fun s hs => (hp s hs).alt (hq s hs)

/-- A repetition may take the two characters of a line end in two turns. -/
theorem lineBlind_many (hc : Consuming p)
    (hfeed : ∀ s, p.width? ('\n' :: s) = some 1 →
      p.width? ('\r' :: '\n' :: crlf s) = some 1 ∧ p.width? ('\n' :: crlf s) = some 1)
    (hblind : ∀ s, '\r' ∉ s → BlindAt p s ∨ s.head? = some '\n' ∧ p.width? s = some 1) :
    LineBlind (.many p) := by
  intro s hs
  obtain ⟨n, hn⟩ : ∃ n, (Pattern.many p).width? s = some n := ⟨_, rfl⟩
  refine blindAt_of_some hn ?_
  refine many_induction (motive := fun s n => '\r' ∉ s →
    (Pattern.many p).width? (crlf s) = some (crlf (s.take n)).length) hc ?_ ?_ hn hs
  · intro s hnone hs
    rcases hblind s hs with ⟨⟨hhere⟩⟩ | ⟨-, hone⟩
    · rw [hnone] at hhere
      exact width?_many_of_none hhere
    · rw [hnone] at hone
      cases hone
  · intro s a b ha _ ih hs
    have hrest := ih (not_mem_drop hs a)
    rw [List.take_add, crlf_append, List.length_append]
    rcases hblind s hs with ⟨⟨hhere⟩⟩ | ⟨hhead, hone⟩
    · rw [ha, Option.map_some] at hhere
      rw [width?_many_of_some hc hhere, drop_crlf, hrest]
      rfl
    · obtain rfl : 1 = a := Option.some.inj (hone.symm.trans ha)
      obtain ⟨r, rfl⟩ : ∃ r, s = '\n' :: r := ⟨_, List.eq_cons_of_mem_head? hhead⟩
      obtain ⟨hreturn, hlast⟩ := hfeed r hone
      rw [crlf_lineFeed, width?_many_of_some hc hreturn, List.drop_succ_cons, List.drop_zero,
        width?_many_of_some hc hlast, List.drop_succ_cons, List.drop_zero]
      simp only [List.drop_succ_cons, List.drop_zero] at hrest
      rw [hrest]
      simp [crlf_lineFeed]
      omega

theorem LineBlind.many (hp : LineBlind p) (hc : Consuming p)
    (hfeed : ∀ s, p.width? ('\n' :: s) ≠ some 1) : LineBlind (.many p) :=
  lineBlind_many hc (fun s h => absurd h (hfeed s)) fun s hs => .inl (hp s hs)

end

/-! ## Gaps -/

lemma lineBlind_lineEnd : LineBlind lineEnd := by
  intro s hs
  cases s with
  | nil => exact ⟨rfl⟩
  | cons c s =>
    by_cases hc : c = '\n'
    · subst hc
      exact ⟨rfl⟩
    · have hreturn : c ≠ '\r' := fun h => hs (by rw [h]; exact List.mem_cons_self)
      have hend : isLineEnd c = false := by simp [isLineEnd, hc, hreturn]
      have hnone : ∀ r, lineEnd.width? (c :: r) = none := by
        intro r
        refine width?_lineEnd_eq_none fun d hd => ?_
        obtain rfl : c = d := by simpa using hd
        exact hend
      exact blindAt_of_none (hnone s) (by rw [crlf_cons hc, hnone])

lemma lineBlind_join : LineBlind (.seq (.text "\\") lineEnd) :=
  (lineBlind_word (by decide)).seq lineBlind_lineEnd

lemma lineBlind_inLine : LineBlind inLine := lineBlind_one rfl rfl

lemma lineBlind_blanks : LineBlind (.many blank) := by
  refine lineBlind_many consuming_blank (fun s _ => ⟨rfl, rfl⟩) fun s hs => ?_
  by_cases hhead : s.head? = some '\n'
  · obtain ⟨r, rfl⟩ : ∃ r, s = '\n' :: r := ⟨_, List.eq_cons_of_mem_head? hhead⟩
    exact .inr ⟨rfl, rfl⟩
  · exact .inl ((blindAt_one _ hhead).alt (lineBlind_join s hs))

/-- The text of a comment is taken character by character. -/
lemma lineBlind_commentText : LineBlind (.many (.seq (.absent (.text "*/")) .any)) := by
  refine lineBlind_many (consuming_of_takesSome rfl) (fun s _ => ⟨rfl, rfl⟩) fun s hs => ?_
  by_cases hhead : s.head? = some '\n'
  · obtain ⟨r, rfl⟩ : ∃ r, s = '\n' :: r := ⟨_, List.eq_cons_of_mem_head? hhead⟩
    exact .inr ⟨rfl, rfl⟩
  · have hmark : BlindAt (.absent (.text "*/")) s := (lineBlind_word (by decide) s hs).absent
    refine .inl (hmark.seq fun n hn => ?_)
    obtain ⟨-, rfl⟩ := width?_absent_eq_some.1 hn
    exact blindAt_one _ hhead

lemma lineBlind_blockComment : LineBlind blockComment :=
  (lineBlind_word (by decide)).seq (lineBlind_commentText.seq (lineBlind_word (by decide)))

lemma lineBlind_lineComment : LineBlind lineComment :=
  (lineBlind_word (by decide)).seq
    (lineBlind_inLine.many (consuming_of_takesSome rfl) fun s h => by cases h)

lemma lineBlind_directive : LineBlind directive :=
  (lineBlind_word (by decide)).seq
    ((lineBlind_join.alt lineBlind_inLine).many consuming_lineTurn fun s h => by cases h)

theorem lineBlind_gap : LineBlind gap := by
  have hcomment : LineBlind comment :=
    lineBlind_blockComment.alt (lineBlind_lineComment.alt lineBlind_directive)
  refine lineBlind_blanks.seq ((hcomment.seq lineBlind_blanks).many consuming_commentBlanks ?_)
  intro s h
  cases h

/-- The gap at the head of a text ends where it did. -/
theorem drop_gapWidth_crlf {s : List Char} (hs : '\r' ∉ s) :
    (crlf s).drop (gapWidth (crlf s)) = crlf (s.drop (gapWidth s)) := by
  obtain ⟨hgap⟩ := lineBlind_gap s hs
  have hwidth : gapWidth (crlf s) = (crlf (s.take (gapWidth s))).length := by
    rw [gapWidth, gapWidth, hgap]
    cases gap.width? s <;> rfl
  rw [hwidth, drop_crlf]

/-! ## Tokens -/

/-- A text and the one with the other line ends begin alike, up to the first line end. -/
lemma exists_line (s : List Char) : ∃ line rest, s = line ++ rest ∧ crlf s = line ++ crlf rest ∧
    Outside isJoint rest ∧ Outside isJoint (crlf rest) := by
  have hsplit : s = s.takeWhile (· ≠ '\n') ++ s.dropWhile (· ≠ '\n') :=
    (List.takeWhile_append_dropWhile).symm
  have hline : '\n' ∉ s.takeWhile (· ≠ '\n') := fun h => by
    simpa using List.mem_takeWhile_imp h
  refine ⟨_, _, hsplit, ?_, ?_⟩
  · conv_lhs => rw [hsplit, crlf_append, crlf_eq_self hline]
  · cases hrest : s.dropWhile (· ≠ '\n') with
    | nil => exact ⟨outside_nil _, outside_nil _⟩
    | cons c r =>
      obtain rfl : c = '\n' := by
        have hc := List.head?_dropWhile_not (· ≠ '\n') s
        rw [hrest] at hc
        simpa using hc
      exact ⟨outside_cons.2 rfl, outside_cons.2 rfl⟩

/-- A token stands in front of a text if it does in front of the other one. -/
theorem stands_crlf_iff {u v : List Char} : Stands u (crlf v) ↔ Stands u v := by
  obtain ⟨line, rest, hv, hcrlf, hout, hout'⟩ := exists_line v
  rw [hcrlf]
  constructor
  · intro h
    rw [hv]
    exact h.change hout
  · intro h
    rw [hv] at h
    exact h.change hout'

/-- A turn between quotes takes a part of a line, or it takes a backslash and leaves the
second character of a line end. -/
lemma width?_quoted_crlf {quote : Char} {x : List Char} {n : Nat} (hx : '\r' ∉ x)
    (h : (quoted quote).width? (crlf x) = some n) :
    (∃ line r, x = line ++ r ∧ line.length = n ∧ ∀ c ∈ line, isLineEnd c = false) ∨
      ((crlf x).drop n).head? = some '\n' := by
  rcases width?_alt_eq_some.1 h with h | ⟨-, h⟩
  · obtain ⟨_, _, hback, hany, rfl⟩ := width?_seq_eq_some.1 h
    obtain ⟨⟨t, ht⟩, rfl⟩ := width?_word_eq_some.1 hback
    obtain ⟨d, r, hd, -, rfl⟩ := width?_one_eq_some.1 hany
    obtain ⟨y, rfl, rfl⟩ := exists_of_crlf_eq_append ht.symm (by decide)
    have hy : crlf y = d :: r := hd
    cases y with
    | nil => cases hy
    | cons e y =>
      by_cases he : e = '\n'
      · subst he
        exact .inr rfl
      · refine .inl ⟨['\\', e], y, rfl, rfl, ?_⟩
        have hreturn : e ≠ '\r' := by
          rintro rfl
          exact hx (by simp)
        simp [isLineEnd, he, hreturn]
  · obtain ⟨d, r, hd, hf, rfl⟩ := width?_one_eq_some.1 h
    have hline : ∀ c ∈ [d], isLineEnd c = false := by
      intro c hc
      rw [List.mem_singleton.1 hc]
      by_contra hend
      simp only [Bool.not_eq_false] at hend
      simp [hend] at hf
    obtain ⟨y, rfl, -⟩ := exists_of_crlf_eq_append (u := [d]) hd hline
    exact .inl ⟨[d], y, rfl, rfl, hline⟩

/-- What is read between quotes up to the closing one is in one line. -/
lemma forall_isLineEnd_quoted {quote : Char} (hquote : isLineEnd quote = false) {s : List Char}
    {n : Nat} (hn : (Pattern.many (quoted quote)).width? s = some n) :
    ∀ x, s = crlf x → '\r' ∉ x → [quote] <+: s.drop n → ∀ c ∈ s.take n, isLineEnd c = false := by
  refine many_induction (motive := fun s n => ∀ x, s = crlf x → '\r' ∉ x →
    [quote] <+: s.drop n → ∀ c ∈ s.take n, isLineEnd c = false) (consuming_quoted quote) ?_ ?_ hn
  · intro s _ x _ _ _ c hc
    simp at hc
  · rintro s a b ha hb ih x rfl hx hclose c hc
    rw [← List.drop_drop] at hclose
    rw [List.take_add] at hc
    rcases width?_quoted_crlf hx ha with ⟨line, r, rfl, rfl, hline⟩ | hhead
    · have hself : crlf line = line := crlf_eq_self fun hmem => by cases hline _ hmem
      rw [crlf_append, hself, List.take_left, List.drop_left] at hc
      rw [crlf_append, hself, List.drop_left] at hclose ih
      rcases List.mem_append.1 hc with hc | hc
      · exact hline c hc
      · exact ih r rfl (fun hr => hx (List.mem_append_right _ hr)) hclose c hc
    · -- At the second character of a line end the text between the quotes is over.
      have hrest := List.eq_cons_of_mem_head? hhead
      have hfail : (quoted quote).width? ((crlf x).drop a) = none := by
        rw [hrest]
        exact width?_alt_eq_none.2 ⟨rfl, by simp [isLineEnd]⟩
      rw [width?_many_of_none hfail] at hb
      obtain rfl := Option.some.inj hb
      obtain ⟨t, ht⟩ := hclose
      rw [List.drop_zero, hrest] at ht
      obtain ⟨rfl, -⟩ := List.cons.inj ht
      cases hquote

/-- A token of a text whose lines end with two characters is in one line. -/
theorem forall_isLineEnd_of_width? {t : Token} {x u v : List Char} (ht : t ≠ .endOfInput)
    (hx : '\r' ∉ x) (hsplit : crlf x = u ++ v) (h : t.width? (u ++ v) = some u.length) :
    ∀ c ∈ u, isLineEnd c = false := by
  have hjoint : ∀ c, isJoint c = true → isLineEnd c = false := by
    intro c hc
    by_contra hend
    simp only [isLineEnd, Bool.not_eq_false, Bool.or_eq_true, decide_eq_true_eq] at hend
    rcases hend with rfl | rfl <;> cases hc
  have hword : t.isWord = true → ∀ c ∈ u, isLineEnd c = false :=
    fun hisWord c hc => hjoint c (isJoint_of_isWordPart ((word_parts hisWord h).2.1 c hc))
  have hclosed : ∀ {quote : Char} {body : Pattern}, isWordPart quote = false →
      isLineEnd quote = false → (∀ s n, body.width? s = some n →
        (Pattern.many (quoted quote)).width? s = some n) →
      (enclosed quote body).width? (u ++ v) = some u.length → ∀ c ∈ u, isLineEnd c = false := by
    intro quote body hquote hend hbody h
    obtain ⟨m, hm, b, rfl, hb⟩ := enclosed_parts hquote h
    have hfront : ∀ c ∈ m ++ [quote], isLineEnd c = false := by
      intro c hc
      rcases List.mem_append.1 hc with hc | hc
      · exact hjoint c (isJoint_of_isWordPart (isWordPart_of_mem_marks hm c hc))
      · rwa [List.mem_singleton.1 hc]
    obtain ⟨y, rfl, hy⟩ := exists_of_crlf_eq_append (v := b ++ quote :: v)
      (by rw [hsplit]; simp) hfront
    have hinside := forall_isLineEnd_quoted hend (hbody _ _ hb) y hy
      (fun hr => hx (List.mem_append_right _ hr)) (by rw [List.drop_left]; exact ⟨v, rfl⟩)
    rw [List.take_left] at hinside
    intro c hc
    have hparts : c ∈ (m ++ [quote]) ++ (b ++ [quote]) := by simpa using hc
    rcases List.mem_append.1 hparts with hc | hc
    · exact hfront c hc
    rcases List.mem_append.1 hc with hc | hc
    · exact hinside c hc
    · exact hfront c (List.mem_append_right m hc)
  cases t with
  | endOfInput => exact absurd rfl ht
  | keyword k => exact hword rfl
  | identifier => exact hword rfl
  | constant =>
    change constant.width? (u ++ v) = some u.length at h
    rw [width?_constant] at h
    cases hnum : numeral.width? (u ++ v) with
    | some a =>
      rw [hnum, Option.some_or] at h
      rw [h] at hnum
      have hall := within_numeral.forall_mem_take hnum
      rw [List.take_left] at hall
      exact fun c hc => hjoint c (hall c hc)
    | none =>
      rw [hnum, Option.none_or, characterConstant_eq] at h
      refine hclosed rfl rfl (fun s n hn => ?_) h
      exact ((width?_oneOrMore_eq_some (consuming_quoted _)).1 hn).1
  | stringLiteral =>
    change stringLiteral.width? (u ++ v) = some u.length at h
    rw [stringLiteral_eq] at h
    exact hclosed rfl rfl (fun s n hn => hn) h
  | punctuator p =>
    have hall : ∀ p ∈ Punctuator.all, ∀ c ∈ p.text.toList, isLineEnd c = false := by decide
    rw [eq_text_of_width?_punctuator h]
    exact hall p p.mem_all

end CTree.Lexical

namespace CTree.Parse
open CTree.Grammar CTree.Lexical CTree.Text

/-! ## Rows -/

/-- The words of a text are its words with the other line ends, if each is in one line. -/
theorem Row.to_crlf {words : List (List Char)} {s : List Char} (h : Row words s) (hs : '\r' ∉ s)
    (hwords : ∀ u ∈ words, '\n' ∉ u) : Row words (crlf s) := by
  induction h with
  | @done s hend =>
    refine .done ?_
    rw [drop_gapWidth_crlf hs, hend]
    rfl
  | @word s u v words hsplit hu _ ih =>
    obtain ⟨hline, hwords⟩ := List.forall_mem_cons.1 hwords
    have hv : '\r' ∉ v := by
      have hdrop := not_mem_drop hs (gapWidth s)
      rw [hsplit] at hdrop
      exact fun hmem => hdrop (List.mem_append_right u hmem)
    refine .word ?_ (stands_crlf_iff.2 hu) (ih hv hwords)
    rw [drop_gapWidth_crlf hs, hsplit, crlf_append, crlf_eq_self hline]

/-- The words of a text whose lines end with two characters are in one line each, and they
are the words of the text with the other line ends. -/
theorem Row.of_crlf {words : List (List Char)} {s : List Char} (h : Row words (crlf s))
    (hs : '\r' ∉ s) : Row words s ∧ ∀ u ∈ words, '\n' ∉ u := by
  generalize htext : crlf s = text at h
  induction h generalizing s with
  | done hend =>
    subst htext
    rw [drop_gapWidth_crlf hs] at hend
    refine ⟨.done ?_, by simp⟩
    cases hrest : s.drop (gapWidth s) with
    | nil => rfl
    | cons c r =>
      rw [hrest] at hend
      by_cases hc : c = '\n'
      · subst hc
        cases hend
      · rw [crlf_cons hc] at hend
        cases hend
  | @word _ u v words hsplit hu _ ih =>
    subst htext
    rw [drop_gapWidth_crlf hs] at hsplit
    have hdrop := not_mem_drop hs (gapWidth s)
    obtain ⟨t, ht, hwidth, -⟩ := id hu
    have hline := forall_isLineEnd_of_width? ht hdrop hsplit hwidth
    obtain ⟨r, hr, rfl⟩ := exists_of_crlf_eq_append hsplit hline
    rw [hr] at hdrop
    obtain ⟨hrow, hwords⟩ := ih (fun hmem => hdrop (List.mem_append_right u hmem)) rfl
    refine ⟨.word hr (stands_crlf_iff.1 hu) hrow, List.forall_mem_cons.2 ⟨?_, hwords⟩⟩
    exact fun hmem => by cases hline _ hmem

/-! ## Sources -/

/-- There is one row of words in a source that is accepted. -/
theorem Row.eq_texts {words : List (List Char)} {source : List Char} {root : Node}
    (hrow : Row words source) (h : parse source = .ok root) : words = root.texts := by
  obtain ⟨inside, stop, hinside, hend, rfl⟩ := parse_eq_ok_iff_inside.1 h
  have haligned : Aligned ⟨words, [], []⟩ [] (.start source) (.start source) :=
    ⟨words, rfl, hrow, hrow⟩
  have hbehind := hinside.behind rfl apart_source barren_nil (haligned.beside _)
  rw [Node.texts, Node.words_source]
  exact (hbehind.words_eq rfl hend).1

/-- The source with a carriage return in front of every line feed. -/
def withCrlf (source : String) : String := String.ofList (crlf source.toList)

/-- A source without carriage returns is accepted with line ends of two characters exactly
if it is accepted and each of its tokens is in one line. The trees are then the same. -/
theorem line_ends_alike {source : String} (h : '\r' ∉ source.toList) :
    ((∃ root, Source.parse (withCrlf source) = .ok root) ↔
      ∃ root, Source.parse source = .ok root ∧ ∀ u ∈ root.texts, '\n' ∉ u) ∧
    ∀ root, Source.parse (withCrlf source) = .ok root →
      Source.toTree (withCrlf source) = Source.toTree source := by
  have htext : (withCrlf source).toList = crlf source.toList := String.toList_ofList
  have hback : ∀ root, Source.parse (withCrlf source) = .ok root →
      ∃ root', Source.parse source = .ok root' ∧ root'.toRose = root.toRose ∧
        ∀ u ∈ root'.texts, '\n' ∉ u := by
    intro root hroot
    have hparse := source_parse_eq_ok_iff.1 hroot
    rw [htext] at hparse
    obtain ⟨hrow, hwords⟩ := (row_of_parse hparse).of_crlf h
    obtain ⟨root', hparse', hrose⟩ := parse_of_row hparse (row_of_parse hparse) hrow
    rw [hrow.eq_texts hparse'] at hwords
    exact ⟨root', source_parse_eq_ok_iff.2 hparse', hrose, hwords⟩
  refine ⟨⟨?_, ?_⟩, ?_⟩
  · rintro ⟨root, hroot⟩
    obtain ⟨root', hroot', -, hwords⟩ := hback root hroot
    exact ⟨root', hroot', hwords⟩
  · rintro ⟨root, hroot, hwords⟩
    have hparse := source_parse_eq_ok_iff.1 hroot
    have hrow := row_of_parse hparse
    obtain ⟨root', hparse', -⟩ := parse_of_row hparse hrow (hrow.to_crlf h hwords)
    exact ⟨root', source_parse_eq_ok_iff.2 (by rw [htext]; exact hparse')⟩
  · intro root hroot
    obtain ⟨root', hroot', hrose, -⟩ := hback root hroot
    rw [source_toTree_eq hroot, source_toTree_eq hroot', Node.toTree, Node.toTree, hrose]

theorem line_ends_alike_joined_line : '\r' ∉ "#a\\\nb\nint\\\nx;//c\n".toList ∧
    (∃ root, Source.parse (withCrlf "#a\\\nb\nint\\\nx;//c\n") = .ok root) ∧
    Source.toTree (withCrlf "#a\\\nb\nint\\\nx;//c\n") =
      Source.toTree "#a\\\nb\nint\\\nx;//c\n" := by
  have htexts : (Source.parse "#a\\\nb\nint\\\nx;//c\n").toOption.map Node.texts =
      some ["int".toList, ['x'], [';']] := by
    decide +kernel
  obtain ⟨root, hparse, hroot⟩ := exists_ok_of_map htexts
  have hreturn : '\r' ∉ "#a\\\nb\nint\\\nx;//c\n".toList := by decide
  obtain ⟨hiff, htree⟩ := line_ends_alike hreturn
  obtain ⟨root', hparse'⟩ := hiff.2 ⟨root, hparse, by rw [hroot]; decide⟩
  exact ⟨hreturn, ⟨root', hparse'⟩, htree root' hparse'⟩

/-- A string that goes over the end of a line is refused with the other line end. -/
theorem joined_string_refused : '\r' ∉ "char*s=\"\\\n\";".toList ∧
    (∃ root, Source.parse "char*s=\"\\\n\";" = .ok root) ∧
    ¬ ∃ root, Source.parse (withCrlf "char*s=\"\\\n\";") = .ok root := by
  have hplain : (Source.parse "char*s=\"\\\n\";").toOption.map Node.stop = some 12 := by
    decide +kernel
  have hother : (Source.parse (withCrlf "char*s=\"\\\n\";")).toOption.map Node.stop = none := by
    decide +kernel
  obtain ⟨root, hparse, -⟩ := exists_ok_of_map hplain
  refine ⟨by decide, ⟨root, hparse⟩, ?_⟩
  rintro ⟨root', hroot'⟩
  rw [hroot'] at hother
  cases hother

end CTree.Parse
