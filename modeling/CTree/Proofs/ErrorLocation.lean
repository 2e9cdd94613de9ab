import CTree.Proofs.FurthestFailure
import CTree.Proofs.LayoutSimulation
import CTree.Proofs.RowChange

/-!
# Where a broken source is reported

Take a source that is accepted and break it in front of one of its tokens, by a character
that begins nothing or by ending it there. Up to this place it is read as before. There
the token is looked for in vain, and no reading comes any further, so the place of the
fault is exactly that of the token.
-/
namespace CTree.Lexical
open Pattern

/-! ## Characters that begin nothing -/

/-- A character that begins neither a token nor a gap. -/
structure Foreign (c : Char) : Prop where
  barren : ∀ s, Barren (c :: s)
  gapWidth_eq_zero : ∀ s, gapWidth (c :: s) = 0

/-- Tokens begin with plain characters. -/
lemma plain_of_mayBegin {t : Token} {c : Char} (h : t.mayBegin c = true) :
    c.toNat ≤ 127 ∧ c ∉ "@$`".toList := by
  have hrange : ∀ d, c ≤ d → d.toNat ≤ 127 → c.toNat ≤ 127 :=
    fun d hc hd => Nat.le_trans (UInt32.le_iff_toNat_le.1 hc) hd
  have hstart : isWordStart c = true → c.toNat ≤ 127 ∧ c ∉ "@$`".toList := by
    intro hc
    constructor
    · simp only [isWordStart, isLetter, Bool.or_eq_true, Bool.and_eq_true, decide_eq_true_eq] at hc
      rcases hc with (⟨-, hc⟩ | ⟨-, hc⟩) | rfl
      · exact hrange 'z' hc (by decide)
      · exact hrange 'Z' hc (by decide)
      · decide
    · have hall : ∀ d ∈ "@$`".toList, isWordStart d = false := by decide
      intro hmem
      rw [hall c hmem] at hc
      cases hc
  have hdigit : isDigit c = true → c.toNat ≤ 127 ∧ c ∉ "@$`".toList := by
    intro hc
    constructor
    · simp only [isDigit, Bool.and_eq_true, decide_eq_true_eq] at hc
      exact hrange '9' hc.2 (by decide)
    · have hall : ∀ d ∈ "@$`".toList, isDigit d = false := by decide
      intro hmem
      rw [hall c hmem] at hc
      cases hc
  cases t with
  | endOfInput => cases h
  | keyword _ => exact hstart h
  | identifier => exact hstart h
  | constant =>
    simp only [Token.mayBegin, Bool.or_eq_true, decide_eq_true_eq] at h
    rcases h with ((h | rfl) | rfl) | h
    · exact hdigit h
    · decide
    · decide
    · exact hstart h
  | stringLiteral =>
    simp only [Token.mayBegin, Bool.or_eq_true, decide_eq_true_eq] at h
    rcases h with rfl | h
    · decide
    · exact hstart h
  | punctuator p =>
    have hall : ∀ p ∈ Punctuator.all, ∀ d ∈ p.text.toList.head?,
        d.toNat ≤ 127 ∧ d ∉ "@$`".toList := by decide
    exact hall p p.mem_all c (by simpa [Token.mayBegin] using h)

theorem foreign_of_not_plain {c : Char} (h : c ∈ "@$`".toList ∨ 127 < c.toNat) : Foreign c := by
  have hplain : ∀ d : Char, d.toNat ≤ 127 → d ∉ "@$`".toList → c ≠ d := by
    rintro d hd hmem rfl
    rcases h with h | h
    · exact hmem h
    · omega
  constructor
  · intro s t ht
    refine width?_eq_none_of_mayBegin ht ?_ s
    by_contra hbegin
    obtain ⟨hle, hnot⟩ := plain_of_mayBegin (by simpa using hbegin)
    exact hplain c hle hnot rfl
  · intro s
    refine gapWidth_eq_zero_of_head ?_ ?_ s
    · have hall : ∀ d ∈ " \t\r\n".toList, d.toNat ≤ 127 ∧ d ∉ "@$`".toList := by decide
      by_contra hblank
      obtain ⟨hle, hnot⟩ := hall c (mem_blanks_of_isSolid (by simpa using hblank))
      exact hplain c hle hnot rfl
    · have hall : ∀ d ∈ ['\\', '#', '/'], d.toNat ≤ 127 ∧ d ∉ "@$`".toList := by decide
      intro hmem
      obtain ⟨hle, hnot⟩ := hall c hmem
      exact hplain c hle hnot rfl

/-- A letter in front of a zero is an identifier. -/
lemma width?_identifier_zero {c : Char} (h : isWordStart c = true) :
    Token.identifier.width? [c, '0'] = some 2 := by
  have hpart := isWordPart_of_isWordStart h
  have hreserved : reserved.width? [c, '0'] = none := by
    cases hn : reserved.width? [c, '0'] with
    | none => rfl
    | some n =>
      obtain ⟨p, hp, hn⟩ := exists_of_width?_firstOf hn
      obtain ⟨k, -, rfl⟩ := List.mem_map.1 hp
      have hlength := (width?_of_isWord (t := .keyword k) rfl hn).1
      obtain ⟨a, b, ha, hb, rfl⟩ := width?_seq_eq_some.1 hn
      obtain ⟨-, rfl⟩ := width?_absent_eq_some.1 hb
      obtain ⟨q, hq, ha⟩ := exists_of_width?_firstOf ha
      obtain ⟨w, hw, rfl⟩ := List.mem_map.1 hq
      obtain ⟨hpre, rfl⟩ := width?_word_eq_some.1 ha
      have hword : w.toList = [c, '0'] := by
        refine hpre.eq_of_length ?_
        rw [Nat.add_zero, List.takeWhile_cons, if_pos hpart] at hlength
        exact hlength
      have hall : ∀ k ∈ Keyword.all, ∀ w ∈ k.spellings, '0' ∉ w.toList := by decide +kernel
      exact absurd (by rw [hword]; simp) (hall k k.mem_all w hw)
  refine width?_seq_eq_some.2 ⟨0, 2, width?_absent_eq_some.2 ⟨hreserved, rfl⟩, ?_, rfl⟩
  refine width?_seq_eq_some.2 ⟨1, 1, width?_one_eq_some.2 ⟨c, ['0'], rfl, h, rfl⟩, ?_, rfl⟩
  rfl

lemma width?_digit {c : Char} (h : isDigit c = true) : Token.constant.width? [c] ≠ none := by
  intro hnone
  change constant.width? [c] = none at hnone
  rw [width?_constant, Option.or_eq_none_iff] at hnone
  have hinteger := (width?_alt_eq_none.1 hnone.1).2
  rcases width?_seq_eq_none.1 hinteger with hfirst | ⟨n, -, hopt⟩
  · have hdigits : digits.width? [c] = none :=
      (width?_alt_eq_none.1 (width?_alt_eq_none.1 hfirst).2).2
    rw [digits, width?_oneOrMore_one] at hdigits
    simp [h] at hdigits
  · exact total_opt _ _ hopt

namespace Foreign
variable {c : Char}

theorem isSticky_eq_false (h : Foreign c) : isSticky c = false := by
  by_contra hsticky
  have hno : ∀ (t : Token) (s : List Char), t ≠ .endOfInput → t.width? (c :: s) ≠ none → False :=
    fun t s ht hne => hne (h.barren s t ht)
  simp only [isSticky, isJoint, Bool.not_eq_false, Bool.or_eq_true, decide_eq_true_eq] at hsticky
  rcases hsticky with (((hword | hjoint) | hglue) | rfl) | rfl
  · simp only [isWordPart, Bool.or_eq_true, decide_eq_true_eq] at hword
    have hstart : isWordStart c = true → False := fun hc =>
      hno .identifier ['0'] (by decide) (by rw [width?_identifier_zero hc]; simp)
    rcases hword with (hc | hc) | rfl
    · exact hstart (by rw [isWordStart, hc, Bool.true_or])
    · exact hno .constant [] (by decide) (width?_digit hc)
    · exact hstart rfl
  · have hmem : c ∈ "'\".+-<=>&|".toList := List.contains_iff_mem.1 hjoint
    have hcases : ∀ d ∈ "'\".+-<=>&|".toList, d = '\'' ∨ d = '\"' ∨
        ∃ p ∈ Punctuator.all, (Token.punctuator p).width? [d] ≠ none := by decide +kernel
    rcases hcases c hmem with rfl | rfl | ⟨p, -, hne⟩
    · exact hno .constant ['a', '\''] (by decide) (by decide +kernel)
    · exact hno .stringLiteral ['\"'] (by decide) (by decide +kernel)
    · exact hno (.punctuator p) [] (by simp) hne
  · have hmem : c ∈ " \t\r\n\\".toList := List.contains_iff_mem.1 hglue
    have hcases : ∀ d ∈ " \t\r\n\\".toList, gapWidth [d, '\n'] ≠ 0 := by decide +kernel
    exact hcases c hmem (h.gapWidth_eq_zero _)
  · exact hno (.punctuator .star) [] (by decide) (by decide)
  · exact hno (.punctuator .div) [] (by decide) (by decide)

/-- It neither is part of a mark that closes a comment nor parts one. -/
theorem closesNoMore (h : Foreign c) (s : List Char) : ClosesNoMore s (c :: s) := by
  have hmark : c ∉ ['*', '/'] := by
    intro hmem
    have hall : ∀ d ∈ ['*', '/'], isSticky d = true := by decide
    exact absurd (hall c hmem) (by simp [h.isSticky_eq_false])
  intro t ht
  rcases closed_of_closed_append hmark ht with hin | hin
  · exact hin.trans (List.prefix_append t s).isInfix
  · exact hin.trans (List.suffix_append t s).isInfix

end Foreign

end CTree.Lexical

namespace CTree.Parse
open CTree.Grammar CTree.Lexical CTree.Lexical.Pattern CTree.Text

theorem source_parse_eq_error {text : List Char} {fault : Fault} (h : parse text = .error fault) :
    Source.parse (String.ofList text) = .error (.source fault text) := by
  rw [Source.parse, String.toList_ofList, h]
  rfl

/-! ## Nothing is read behind the last word -/

section Stuck
variable {goal : Goal} {here there : Cursor} {t s : Token} {read : List Node}

/-- At a snag tokens are tried there only. -/
theorem Tries.stuck (h : Tries goal here t read there) (hhere : Stuck s here)
    (hmeets : goal.expr.meets s = false) : there = here := by
  induction h with
  | token => rfl
  | rule _ ih => exact ih hhere ((Rule.meets_body hhere.snagging _).trans hmeets)
  | seqFirst _ ih => exact ih hhere (Bool.or_eq_false_iff.1 hmeets).1
  | seqSecond hreads _ ih =>
    obtain ⟨hfirst, hsecond⟩ := Bool.or_eq_false_iff.1 hmeets
    cases hreads.stuck hhere hhere hfirst with
    | some h =>
      rw [h.nullable_of_nil, Bool.true_and] at hsecond
      rw [hhere.skipGap_eq] at ih
      exact ih hhere hsecond
  | altFirst _ ih => exact ih hhere (Bool.or_eq_false_iff.1 hmeets).1
  | altSecond _ _ ih => exact ih hhere (Bool.or_eq_false_iff.1 hmeets).2
  | opt _ ih => exact ih hhere hmeets
  | ahead _ ih => exact ih hhere hmeets
  | manyFirst _ ih => exact ih hhere hmeets
  | manyMore hreads _ ih =>
    cases hreads.stuck hhere hhere hmeets with
    | some h => exact ih hhere hmeets
  | againFirst _ ih =>
    rw [hhere.skipGap_eq] at ih
    exact ih hhere hmeets
  | againMore hreads _ ih =>
    rw [hhere.skipGap_eq] at hreads
    cases hreads.stuck hhere hhere hmeets with
    | some h => exact ih hhere hmeets

end Stuck

section Barren
variable {words : List (List Char)} {final : List Char} {goal : Goal} {here there stop : Cursor}
  {before : List (List Char)} {nodes read : List Node} {t : Token}

theorem Behind.suffix {e : Expr Rule}
    (h : Behind ⟨words, final, final⟩ e before here there) : final <:+ there.rest := by
  cases h with
  | aligned h =>
    obtain ⟨left, -, -, hrow⟩ := h
    exact hrow.suffix
  | stuck _ _ _ hfinal => exact hfinal

/-- No token is tried behind the place where none begins. -/
theorem Tries.suffix (h : Tries goal here t read there) (hin : goal.expr.inner = true)
    (hapart : goal.whole.Apart) (hbarren : Barren final)
    (hbeside : Beside ⟨words, final, final⟩ before goal here here) : final <:+ there.rest := by
  induction h generalizing before with
  | token =>
    obtain ⟨⟨left, -, hrow, -⟩, -⟩ := hbeside
    exact hrow.suffix
  | @rule r _ _ _ _ _ ih =>
    have hr := Expr.inner_rule_iff.1 hin
    exact ih (Rule.inner_body hr) (Rule.apart_body r) hbeside
  | seqFirst _ ih => exact ih (Bool.and_eq_true_iff.1 hin).1 hapart.seq.1 hbeside
  | seqSecond hreads htries ih =>
    have hboth := Bool.and_eq_true_iff.1 hin
    cases hreads.behind hboth.1 hapart.seq.1 hbarren hbeside with
    | aligned h => exact ih hboth.2 hapart.seq.2 (h.beside _)
    | stuck hends hstuck _ hfinal =>
      rw [hstuck.skipGap_eq] at htries
      rw [htries.stuck hstuck (hapart.meets_eq_false hstuck.snagging hends)]
      exact hfinal
  | altFirst _ ih => exact ih (Bool.and_eq_true_iff.1 hin).1 hapart.alt.1 hbeside
  | altSecond _ _ ih => exact ih (Bool.and_eq_true_iff.1 hin).2 hapart.alt.2 hbeside
  | opt _ ih => exact ih hin hapart hbeside
  | ahead _ ih => exact ih hin hapart hbeside
  | manyFirst _ ih => exact ih hin hapart.many hbeside
  | manyMore hreads _ ih =>
    exact ih hin hapart (hreads.behind hin hapart.many hbarren hbeside)
  | againFirst htries ih =>
    cases hbeside with
    | aligned h => exact ih hin hapart.many (h.beside _)
    | stuck hends hstuck _ hfinal =>
      rw [hstuck.skipGap_eq] at htries
      rw [htries.stuck hstuck (hapart.meets_again hstuck.snagging hends)]
      exact hfinal
  | @againMore e _ _ _ _ _ _ hreads htries ih =>
    cases hbeside with
    | aligned h =>
      exact ih hin hapart (hreads.behind hin hapart.many hbarren (h.beside _))
    | stuck hends hstuck hstuck' hfinal =>
      rw [hstuck.skipGap_eq] at hreads
      cases hreads.stuck hstuck hstuck (hapart.meets_again hstuck.snagging hends) with
      | some _ =>
        have hbeside : Beside ⟨words, final, final⟩ before (.again e) _ _ :=
          .stuck hends hstuck hstuck' hfinal
        exact ih hin hapart hbeside

theorem Behind.suffix_skipGap {e : Expr Rule}
    (h : Behind ⟨words, final, final⟩ e before here here) : final <:+ (skipGap here).rest := by
  cases h with
  | aligned h =>
    obtain ⟨left, -, hrow, -⟩ := h.skip
    exact hrow.suffix
  | stuck _ hstuck _ hfinal =>
    rw [hstuck.skipGap_eq]
    exact hfinal

/-- What is read of a whole text stops in front of the place where no token begins. -/
theorem Reads.suffix_source {text : List Char} {inside : List Node} (hrow : RowTo final words text)
    (hbarren : Barren final)
    (h : Reads (.once (.opt (.rule .translationUnit))) (skipGap (.start text))
      (some (inside, stop))) : final <:+ (skipGap stop).rest := by
  have haligned : Aligned ⟨words, final, final⟩ [] (.start text) (.start text) :=
    ⟨words, rfl, hrow, hrow⟩
  exact (h.behind rfl apart_source hbarren (haligned.beside _)).suffix_skipGap

theorem Tries.suffix_source {text : List Char} (hrow : RowTo final words text)
    (hbarren : Barren final)
    (h : Tries (.once (.rule .compilationUnit)) (.start text) t read there) :
    final <:+ there.rest := by
  have haligned : Aligned ⟨words, final, final⟩ [] (.start text) (.start text) :=
    ⟨words, rfl, hrow, hrow⟩
  cases h with
  | rule h =>
    cases h with
    | seqFirst h =>
      cases h with
      | seqFirst h => cases h
      | seqSecond hnothing h =>
        cases hnothing
        exact h.suffix rfl apart_source hbarren (haligned.beside _)
    | seqSecond hreads h =>
      cases h
      cases hreads with
      | seq hnothing hinside =>
        cases hnothing
        exact hinside.suffix_source hrow hbarren

end Barren

/-! ## Two texts with the same words in front -/

section Broken
variable {source front rest new : List Char} {words : List (List Char)} {root : Node}

/-- The first token behind the common words is looked for in vain. -/
theorem mem_failures (h : parse source = .ok root) (hrow : RowTo rest words source)
    (hne : rest ≠ []) (hrow' : RowTo new words (front ++ new)) (hbarren : Barren new) :
    byteCount front ∈ failures (.once (.rule .compilationUnit)) (.start (front ++ new)) := by
  obtain ⟨inside, stop, hinside, hend, -⟩ := parse_eq_ok_iff_inside.1 h
  have haligned : Aligned ⟨words, rest, new⟩ [] (.start source) (.start (front ++ new)) :=
    ⟨words, rfl, hrow, hrow'⟩
  cases hinside.alike rfl apart_source (haligned.beside _) with
  | some _ _ hbehind =>
    -- The end of the source is not in front of what is left of it.
    exfalso
    cases hbehind with
    | aligned h =>
      obtain ⟨left, -, hleft, -⟩ := h.skip
      have hsuffix := hleft.suffix
      rw [hend] at hsuffix
      exact hne (List.suffix_nil.1 hsuffix)
    | stuck _ hstuck _ _ =>
      rw [hstuck.skipGap_eq] at hend
      obtain ⟨c, s, hs, -⟩ := hstuck
      rw [hend] at hs
      cases hs
  | astray hastray =>
    obtain ⟨t, nodes, there, ht, htries, hrest, -, -⟩ := hastray
    have htries' : Tries (.once (.rule .compilationUnit)) (.start (front ++ new)) t ([] ++ nodes)
        there := .rule (.seqFirst (.seqSecond .nothing htries))
    obtain ⟨s, hs, hoffset⟩ := htries'.reaches
    rw [hrest] at hs
    obtain rfl := List.append_cancel_right (hs : front ++ new = s ++ new)
    refine ⟨t, [] ++ nodes, there, htries', ?_, ?_⟩
    · rw [hrest]
      exact hbarren t ht
    · rw [hoffset]
      exact Nat.zero_add _

/-- A fault is about the place behind the common words. -/
theorem fault_offset_eq {fault : Fault} (h : parse source = .ok root)
    (hrow : RowTo rest words source) (hne : rest ≠ []) (hrow' : RowTo new words (front ++ new))
    (hbarren : Barren new) (h' : parse (front ++ new) = .error fault) :
    fault.offset = byteCount front := by
  obtain ⟨-, ⟨t, read, there, htries, -, hoffset⟩, hgreatest⟩ := parse_eq_error h'
  refine Nat.le_antisymm ?_ (hgreatest (mem_failures h hrow hne hrow' hbarren))
  obtain ⟨s, hs, hthere⟩ := htries.reaches
  obtain ⟨r, hr⟩ := htries.suffix_source hrow' hbarren
  have hfront : front = s ++ r := by
    have htext : front ++ new = s ++ r ++ new := by
      rw [List.append_assoc, hr]
      exact hs
    exact List.append_cancel_right htext
  have hzero : there.offset = byteCount s := by
    rw [hthere]
    exact Nat.zero_add _
  rw [← hoffset, hzero, hfront, byteCount_append]
  exact Nat.le_add_right _ _

theorem exists_fault (hne : new ≠ []) (hrow : RowTo new words (front ++ new))
    (hbarren : Barren new) : ∃ fault, parse (front ++ new) = .error fault := by
  cases h : parse (front ++ new) with
  | error fault => exact ⟨fault, rfl⟩
  | ok root =>
    obtain ⟨inside, stop, hinside, hend, -⟩ := parse_eq_ok_iff_inside.1 h
    have hsuffix := hinside.suffix_source hrow hbarren
    rw [hend] at hsuffix
    exact absurd (List.suffix_nil.1 hsuffix) hne

end Broken

/-- In front of each of its words a source is a row of words. -/
theorem row_before_word {source : List Char} {root : Node} (h : parse source = .ok root) {w : Leaf}
    (hw : w ∈ Node.words [root]) :
    ∃ front c r words, source = front ++ c :: r ∧ byteCount front = w.start ∧
      RowTo (c :: r) words source ∧ ∃ t : Token, t.mayBegin c = true := by
  obtain ⟨stop, hpasses, -, hchain⟩ := passes_of_parse h
  obtain ⟨before, after, hwords⟩ := List.append_of_mem hw
  rw [hwords] at hpasses hchain
  have ht := hpasses.token_ne w (by simp)
  obtain ⟨mid, n, ⟨front, hfront, hoffset⟩, hrow, hn, hstart, -⟩ := hpasses.row_before hchain
  obtain ⟨c, r, hrest, hc⟩ := head_of_width? ht hn
  rw [hrest] at hrow hfront
  refine ⟨front, c, r, _, hfront, ?_, hrow, w.token, hc⟩
  rw [hstart, hoffset]
  exact (Nat.zero_add _).symm

/-- The words in front of a place stay when the text is broken there. -/
theorem RowTo.break {front r new : List Char} {c : Char} {words : List (List Char)} {t : Token}
    (h : RowTo (c :: r) words (front ++ c :: r)) (hc : t.mayBegin c = true)
    (hnew : Outside isSticky new) (hgap : gapWidth new = 0) (hclose : ClosesNoMore (c :: r) new) :
    RowTo new words (front ++ new) := by
  rw [← List.nil_append (c :: r)] at h
  obtain ⟨before, hbefore, hrow⟩ := h.change (by simp) (outside_isGlue_of_mayBegin hc r)
    (outside_isGlue_of_sticky hnew) (outside_isKnit_of_sticky hnew) hgap (.inr hclose)
  rwa [List.append_cancel_right hbefore]

/-- Break a source in front of one of its words. A character that begins nothing, such as
those outside of ASCII, is reported where it stands. A source that ends there is accepted,
or its end is reported. -/
theorem break_reported_at_word {source : String} {root : Node}
    (h : Source.parse source = .ok root) {w : Leaf} (hw : w ∈ Node.words [root]) :
    (∀ c : Char, c ∈ "@$`".toList ∨ 127 < c.toNat → Foreign c) ∧
    ∃ front rest, source.toList = front ++ rest ∧ byteCount front = w.start ∧
      (∀ c, Foreign c → ∃ e, Source.parse (String.ofList (front ++ c :: rest)) = .error e ∧
        e.diagnostic.kind = .parse ∧ e.diagnostic.span = some ⟨w.start, w.start⟩) ∧
      ((∃ root', Source.parse (String.ofList front) = .ok root') ∨
        ∃ e, Source.parse (String.ofList front) = .error e ∧ e.diagnostic.kind = .parse ∧
          e.diagnostic.span = some ⟨w.start, w.start⟩ ∧
          e.diagnostic.help = some "the input ended before the construct was complete") := by
  have hparse := source_parse_eq_ok_iff.1 h
  obtain ⟨front, d, r, words, hsource, hstart, hrow, t, hd⟩ := row_before_word hparse hw
  rw [hsource] at hparse hrow
  refine ⟨fun c => foreign_of_not_plain, front, d :: r, hsource, hstart, fun c hc => ?_, ?_⟩
  · have hrow' := hrow.break hd (outside_cons.2 hc.isSticky_eq_false) (hc.gapWidth_eq_zero _)
      (hc.closesNoMore _)
    obtain ⟨fault, hfault⟩ := exists_fault (List.cons_ne_nil c (d :: r)) hrow' (hc.barren _)
    have hoffset := fault_offset_eq hparse hrow (List.cons_ne_nil d r) hrow' (hc.barren _) hfault
    refine ⟨_, source_parse_eq_error hfault, rfl, ?_⟩
    rw [← hstart, ← hoffset]
    rfl
  · have hrow' := hrow.break hd (outside_nil _) rfl closesNoMore_nil
    cases hfront : parse (front ++ []) with
    | ok root' =>
      refine .inl ⟨root', source_parse_eq_ok_iff.2 ?_⟩
      rwa [String.toList_ofList, ← List.append_nil front]
    | error fault =>
      have hoffset := fault_offset_eq hparse hrow (List.cons_ne_nil d r) hrow' barren_nil hfront
      rw [List.append_nil] at hfront
      refine .inr ⟨_, source_parse_eq_error hfront, rfl, ?_, ?_⟩
      · rw [← hstart, ← hoffset]
        rfl
      · show some (if byteCount front ≤ fault.offset then _ else _) = _
        rw [if_pos hoffset.ge]

theorem break_reported_at_word_semicolon : ∃ root, Source.parse "int a;" = .ok root ∧
    ⟨.punctuator .semi, 5, [';']⟩ ∈ Node.words [root] ∧
    (∀ c : Char, c ∈ "@$`".toList ∨ 127 < c.toNat → Foreign c) ∧
    ∃ front rest, "int a;".toList = front ++ rest ∧ byteCount front = 5 ∧
      (∀ c, Foreign c → ∃ e, Source.parse (String.ofList (front ++ c :: rest)) = .error e ∧
        e.diagnostic.kind = .parse ∧ e.diagnostic.span = some ⟨5, 5⟩) ∧
      ((∃ root', Source.parse (String.ofList front) = .ok root') ∨
        ∃ e, Source.parse (String.ofList front) = .error e ∧ e.diagnostic.kind = .parse ∧
          e.diagnostic.span = some ⟨5, 5⟩ ∧
          e.diagnostic.help = some "the input ended before the construct was complete") := by
  have hwords : (Source.parse "int a;").toOption.map
      (fun root => (Node.words [root]).map fun w => (w.token, w.start, w.text)) =
      some [(.keyword .kwInt, 0, "int".toList), (.identifier, 4, ['a']),
        (.punctuator .semi, 5, [';'])] := by
    decide +kernel
  obtain ⟨root, hparse, hroot⟩ := exists_ok_of_map hwords
  have hlast : (Token.punctuator .semi, 5, [';']) ∈
      (Node.words [root]).map fun w => (w.token, w.start, w.text) := by
    rw [hroot]
    simp
  obtain ⟨⟨t, start, text⟩, hw, heq⟩ := List.mem_map.1 hlast
  cases heq
  exact ⟨root, hparse, hw, break_reported_at_word hparse hw⟩

end CTree.Parse
