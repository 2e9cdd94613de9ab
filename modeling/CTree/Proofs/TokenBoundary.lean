import CTree.Proofs.TokenText

/-!
# Where tokens end

A token that was read as a whole is read as a whole in front of white space too, and
then every token reads from its text what it reads from the text alone. Where a
token takes a part of the text of another, what is left is neither a gap nor, but
for the tokens that `Token.clash` names, the beginning of a token.
-/
namespace CTree.Lexical
open Pattern

/-- A text that is a token. -/
def IsTokenText (u : List Char) : Prop := ∃ t, t ≠ Token.endOfInput ∧ t.width? u = some u.length

/-- Every token reads from the text, with the rest behind it, what it reads from the text alone. -/
def Settled (u v : List Char) : Prop :=
  ∀ t, t ≠ Token.endOfInput → t.width? (u ++ v) = t.width? u

/-- No token is read at the head of the text. -/
def Barren (s : List Char) : Prop := ∀ t, t ≠ Token.endOfInput → t.width? s = none

theorem barren_nil : Barren [] := by
  intro t ht
  cases h : t.width? [] with
  | none => rfl
  | some n =>
    obtain ⟨c, r, hs, -⟩ := head_of_width? ht h
    cases hs

/-! ## In front of white space -/

lemma mem_blanks_of_isSolid {c : Char} (h : isSolid c = false) : c ∈ " \t\r\n".toList := by
  rw [← List.contains_iff_mem]
  simpa only [isSolid, Bool.not_eq_false'] using h

/-- A class without white space ends in front of white space. -/
lemma outside_of_solid {K : Char → Bool} {w : List Char}
    (hK : ∀ c ∈ " \t\r\n".toList, K c = false) (hw : Outside isSolid w) : Outside K w :=
  fun c hc => hK c (mem_blanks_of_isSolid (hw c hc))

lemma outside_isJoint_of_solid {w : List Char} (hw : Outside isSolid w) : Outside isJoint w :=
  outside_of_solid (by decide) hw

lemma isJoint_of_isWordPart {c : Char} (h : isWordPart c = true) : isJoint c = true := by
  rw [isJoint, h, Bool.true_or]

lemma outside_isWordPart_of_joint {w : List Char} (hw : Outside isJoint w) :
    Outside isWordPart w := by
  intro c hc
  by_contra hpart
  have hjoint := isJoint_of_isWordPart (by simpa using hpart)
  rw [hw c hc] at hjoint
  cases hjoint

/-- Text between quotes ends with the closing quote. -/
lemma width?_enclosed_whole {quote : Char} {body : Pattern} {u v : List Char}
    (hq : isWordPart quote = false)
    (hbody : ∀ b v, body.width? (b ++ quote :: v) = some b.length →
      ∀ w, body.width? (b ++ quote :: w) = some b.length)
    (h : (enclosed quote body).width? (u ++ v) = some u.length) (w : List Char) :
    (enclosed quote body).width? (u ++ w) = some u.length := by
  obtain ⟨m, hm, b, rfl, hb⟩ := enclosed_parts hq h
  refine (width?_enclosed_eq_some hq).2
    ⟨m, hm, b ++ quote :: w, b.length, by simp, hbody b v hb w, ?_, ?_⟩
  · rw [List.drop_left]
    exact ⟨w, rfl⟩
  · simp [Nat.add_comm]

lemma width?_many_quoted_whole {quote : Char} (hquote : quote ≠ '\\') (b v : List Char)
    (h : (Pattern.many (quoted quote)).width? (b ++ quote :: v) = some b.length)
    (w : List Char) :
    (Pattern.many (quoted quote)).width? (b ++ quote :: w) = some b.length := by
  have hclose : [quote] <+: (b ++ quote :: v).drop b.length := by
    rw [List.drop_left]
    exact ⟨v, rfl⟩
  have hcut := width?_many_quoted h hclose hquote w
  rwa [List.take_left] at hcut

/-- A token that was read is read again when the text further on changes to one that does
not begin with a joint character. -/
theorem width?_change {t : Token} {u a v w : List Char} (ht : t ≠ .endOfInput)
    (h : t.width? (u ++ (a ++ v)) = some u.length) (hw : Outside isJoint w) :
    t.width? (u ++ (a ++ w)) = some u.length := by
  have hword : t.isWord = true → t.width? (u ++ (a ++ w)) = some u.length := by
    intro hisWord
    have hout := (word_parts hisWord h).2.2
    have hout' := hout.change (outside_isWordPart_of_joint hw)
    have hwithin := within_of_isWord hisWord
    exact ((hwithin.width?_append hout' u).trans (hwithin.width?_append hout u).symm).trans h
  cases t with
  | endOfInput => exact absurd rfl ht
  | keyword k => exact hword rfl
  | identifier => exact hword rfl
  | constant =>
    change constant.width? (u ++ (a ++ v)) = some u.length at h
    show constant.width? (u ++ (a ++ w)) = some u.length
    rw [width?_constant] at h ⊢
    cases hnum : numeral.width? (u ++ (a ++ v)) with
    | some b =>
      rw [hnum, Option.some_or] at h
      rw [h] at hnum
      rw [width?_numeral_append hnum hw, Option.some_or]
    | none =>
      rw [hnum, Option.none_or, characterConstant_eq] at h
      obtain ⟨m, hm, b, hu, -⟩ := enclosed_parts rfl h
      obtain ⟨c, r, hs, hdigit, hpoint, -⟩ := head_of_mem_marks (b := b ++ ['\'']) hm (.inl rfl)
      rw [hs] at hu
      have hnone : numeral.width? (u ++ (a ++ w)) = none := by
        rw [hu, List.cons_append]
        exact width?_numeral_eq_none hdigit hpoint _
      rw [hnone, Option.none_or, characterConstant_eq]
      refine width?_enclosed_whole rfl (fun b v hb w => ?_) h _
      rw [width?_oneOrMore_eq_some (consuming_quoted _)] at hb ⊢
      exact ⟨width?_many_quoted_whole (by decide) b v hb.1 w, hb.2⟩
  | stringLiteral =>
    change stringLiteral.width? (u ++ (a ++ v)) = some u.length at h
    show stringLiteral.width? (u ++ (a ++ w)) = some u.length
    rw [stringLiteral_eq] at h ⊢
    exact width?_enclosed_whole rfl (width?_many_quoted_whole (by decide)) h _
  | punctuator p =>
    obtain ⟨-, -, hnot⟩ := width?_punctuator_eq_some.1 h
    have hu := eq_text_of_width?_punctuator h
    have hjoint : ∀ p ∈ Punctuator.all, ∀ c ∈ p.entry.notBefore.toList, isJoint c = true := by
      decide +kernel
    rw [width?_punctuator_eq_some, ← hu, List.drop_left]
    refine ⟨List.prefix_append u _, rfl, fun c hc hin => ?_⟩
    cases a with
    | nil =>
      have hfalse := hw c hc
      rw [hjoint p p.mem_all c hin] at hfalse
      cases hfalse
    | cons d a =>
      rw [List.drop_left] at hnot
      exact hnot c hc hin

/-- A token that is read as a whole is read as a whole in front of white space. -/
theorem width?_whole {t : Token} {u v w : List Char} (ht : t ≠ .endOfInput)
    (h : t.width? (u ++ v) = some u.length) (hw : Outside isSolid w) :
    t.width? (u ++ w) = some u.length :=
  width?_change (a := []) ht h (outside_isJoint_of_solid hw)

theorem isTokenText_of_width? {t : Token} {u v : List Char} (ht : t ≠ .endOfInput)
    (h : t.width? (u ++ v) = some u.length) : IsTokenText u := by
  have hwhole := width?_whole ht h (outside_nil isSolid)
  rw [List.append_nil] at hwhole
  exact ⟨t, ht, hwhole⟩

theorem IsTokenText.ne_nil {u : List Char} (h : IsTokenText u) : u ≠ [] := by
  obtain ⟨t, ht, hu⟩ := h
  obtain ⟨c, r, rfl, -⟩ := head_of_width? ht hu
  exact List.cons_ne_nil c r

/-! ## What is read from the text of a token -/

lemma outside_bars {t : Token} {u v : List Char} (h : t.width? (u ++ v) = some u.length)
    (hsnag : Outside t.snags v) : Outside t.bars v := by
  cases t with
  | keyword k => exact (word_parts rfl h).2.2
  | identifier =>
    have hout := (word_parts rfl h).2.2
    exact fun c hc => Bool.or_eq_false_iff.2 ⟨hout c hc, hsnag c hc⟩
  | punctuator p =>
    obtain ⟨-, hlen, hnot⟩ := width?_punctuator_eq_some.1 h
    rw [List.drop_left] at hnot
    intro c hc
    refine Bool.or_eq_false_iff.2 ⟨?_, hsnag c hc⟩
    simpa using hnot c hc
  | endOfInput | constant | stringLiteral => exact fun _ _ => rfl

/-- A token that was read settles what is read from its text, unless a snag follows. -/
theorem settled {t : Token} {u v : List Char} (ht : t ≠ .endOfInput)
    (h : t.width? (u ++ v) = some u.length) (hsnag : Outside t.snags v) : Settled u v := by
  intro other ho
  by_cases hne : other = t
  · subst hne
    have hwhole := width?_whole ht h (outside_nil isSolid)
    rw [List.append_nil] at hwhole
    rw [h, hwhole]
  · obtain ⟨result, hreads, -⟩ := (shape_of_width? ht h).foreseen ho hne
    have hnil := hreads [] (outside_nil _)
    rw [List.append_nil] at hnil
    rw [hreads v (outside_bars h hsnag), hnil]

/-- A token was read and none of its snags follows. -/
def Stands (u v : List Char) : Prop :=
  ∃ t, t ≠ Token.endOfInput ∧ t.width? (u ++ v) = some u.length ∧ Outside t.snags v

theorem Stands.isTokenText {u v : List Char} (h : Stands u v) : IsTokenText u := by
  obtain ⟨t, ht, hu, -⟩ := h
  exact isTokenText_of_width? ht hu

theorem Stands.settled {u v : List Char} (h : Stands u v) : Settled u v := by
  obtain ⟨t, ht, hu, hsnag⟩ := h
  exact Lexical.settled ht hu hsnag

theorem IsTokenText.stands {u w : List Char} (h : IsTokenText u) (hw : Outside isSolid w) :
    Stands u w := by
  obtain ⟨t, ht, hu⟩ := h
  refine ⟨t, ht, width?_whole (v := []) ht (by rwa [List.append_nil]) hw, ?_⟩
  refine outside_of_solid ?_ hw
  cases t with
  | punctuator p => cases p <;> decide
  | keyword _ => exact fun _ _ => rfl
  | endOfInput | identifier | constant | stringLiteral => decide

/-- A token that takes a part of the text of another leaves a snag. -/
theorem IsTokenText.snags {t : Token} {u : List Char} {n : Nat} (h : IsTokenText u)
    (ht : t ≠ .endOfInput) (hn : t.width? u = some n) (hne : n ≠ u.length) :
    ∃ c r, u.drop n = c :: r ∧ t.snags c = true := by
  obtain ⟨whole, hwhole, hu⟩ := h
  have hother : t ≠ whole := by
    rintro rfl
    rw [hu] at hn
    exact hne (Option.some.inj hn).symm
  have hshape : Shape whole u :=
    shape_of_width? (v := []) hwhole (by rwa [List.append_nil])
  obtain ⟨result, hreads, hpart⟩ := hshape.foreseen ht hother
  have hnil := hreads [] (outside_nil _)
  rw [List.append_nil, hn] at hnil
  exact (hpart n hnil.symm).resolve_left hne

/-! ## Snags -/

/-- Whether the second token may be read at a snag of the first one. -/
def Token.clash : Token → Token → Bool
  | identifier, constant | identifier, stringLiteral => true
  | punctuator .dot, constant => true
  | punctuator .dot, punctuator .dot | punctuator .dot, punctuator .ellipsis => true
  | _, _ => false

/-- A snag is a quote, a point or a digit. -/
lemma snag_cases {t : Token} {c : Char} (h : t.snags c = true) :
    t = .identifier ∧ c ∈ ['\'', '\"'] ∨ t = .punctuator .dot ∧ (c = '.' ∨ isDigit c = true) := by
  cases t with
  | identifier => exact .inl ⟨rfl, by simpa [Token.snags] using h⟩
  | punctuator p =>
    cases p
    case dot => exact .inr ⟨rfl, by simpa [Token.snags] using h⟩
    all_goals cases h
  | endOfInput | keyword _ | constant | stringLiteral => cases h

lemma isJoint_of_snags {t : Token} {c : Char} (h : t.snags c = true) : isJoint c = true := by
  rcases snag_cases h with ⟨-, hquote⟩ | ⟨-, rfl | hdigit⟩
  · simp only [List.mem_cons, List.not_mem_nil, or_false] at hquote
    rcases hquote with rfl | rfl <;> rfl
  · rfl
  · exact isJoint_of_isWordPart (isWordPart_of_isDigit hdigit)

/-- A token stands as before when the text further on changes. -/
theorem Stands.change {u a v w : List Char} (h : Stands u (a ++ v)) (hw : Outside isJoint w) :
    Stands u (a ++ w) := by
  obtain ⟨t, ht, hu, hsnag⟩ := h
  refine ⟨t, ht, width?_change ht hu hw, hsnag.change fun c hc => ?_⟩
  by_contra hc'
  have hjoint := isJoint_of_snags (by simpa using hc')
  rw [hw c hc] at hjoint
  cases hjoint

/-- At a snag only the tokens that clash are read. -/
theorem width?_of_snag {t other : Token} {c : Char} (hc : t.snags c = true)
    (hclash : t.clash other = false) (s : List Char) : other.width? (c :: s) = none := by
  by_cases ho : other = .endOfInput
  · rw [ho, Token.width?_endOfInput_cons]
  refine width?_eq_none_of_mayBegin ho ?_ s
  rcases snag_cases hc with ⟨rfl, hquote⟩ | ⟨rfl, rfl | hdigit⟩
  · cases other with
    | endOfInput => rfl
    | constant | stringLiteral => cases hclash
    | punctuator p => exact mayBegin_punctuator_eq_false (.inr hquote) p
    | keyword _ | identifier =>
      simp only [List.mem_cons, List.not_mem_nil, or_false] at hquote
      rcases hquote with rfl | rfl <;> rfl
  · cases other with
    | constant => cases hclash
    | endOfInput | keyword _ | identifier | stringLiteral => rfl
    | punctuator p =>
      by_contra h
      rcases (mayBegin_punctuator (by simpa using h)).2.2.2 rfl with rfl | rfl <;> cases hclash
  · have hstart := isWordStart_of_isDigit hdigit
    cases other with
    | endOfInput => rfl
    | constant => cases hclash
    | keyword _ | identifier => exact hstart
    | stringLiteral =>
      have hquote : c ≠ '\"' := by
        rintro rfl
        cases hdigit
      simp [Token.mayBegin, hstart, hquote]
    | punctuator p => exact mayBegin_punctuator_eq_false (.inl (isWordPart_of_isDigit hdigit)) p

/-! ## No gap begins at a token -/

lemma gapWidth_eq_zero_of_head {c : Char} (hsolid : isSolid c = true)
    (hc : c ∉ ['\\', '#', '/']) (s : List Char) : gapWidth (c :: s) = 0 := by
  simp only [List.mem_cons, List.not_mem_nil, or_false, not_or] at hc
  rw [gapWidth_eq_zero_iff]
  have hblank : blank.HeadIn fun c => !isSolid c || c = '\\' := by
    refine ⟨fun d hd => ?_, fun d hd => ?_, .inl rfl⟩
    · have hno : isSolid d = false := by rw [isSolid, hd, Bool.not_true]
      simp only [hno, Bool.not_false, Bool.true_or]
    · obtain rfl : '\\' = d := by simpa using hd
      rfl
  have hcomment : comment.HeadIn fun c => c = '#' || c = '/' := by
    have htext : ∀ t : String, (∀ d ∈ t.toList.head?, (d = '#' || d = '/') = true) →
        (Pattern.text t).HeadIn fun c => c = '#' || c = '/' := fun t h => h
    exact ⟨⟨htext _ (by decide), .inl rfl⟩, ⟨htext _ (by decide), .inl rfl⟩,
      htext _ (by decide), .inl rfl⟩
  constructor
  · exact hblank.width?_eq_none consuming_blank (outside_cons.2 (by simp [hsolid, hc]))
  · exact hcomment.width?_eq_none consuming_comment (outside_cons.2 (by simp [hc]))

lemma gapWidth_of_snag {t : Token} {c : Char} (h : t.snags c = true) (s : List Char) :
    gapWidth (c :: s) = 0 := by
  rcases snag_cases h with ⟨-, hquote⟩ | ⟨-, rfl | hdigit⟩
  · simp only [List.mem_cons, List.not_mem_nil, or_false] at hquote
    rcases hquote with rfl | rfl
    · exact gapWidth_eq_zero_of_head rfl (by decide) s
    · exact gapWidth_eq_zero_of_head rfl (by decide) s
  · exact gapWidth_eq_zero_of_head rfl (by decide) s
  · have hsolid : isSolid c = true := solid_of (f := isDigit) (by decide) c hdigit
    refine gapWidth_eq_zero_of_head hsolid ?_ s
    intro hc
    simp only [List.mem_cons, List.not_mem_nil, or_false] at hc
    rcases hc with rfl | rfl | rfl <;> cases hdigit

lemma gapWidth_slash {s : List Char} (h : ∀ c ∈ s.head?, c ≠ '*' ∧ c ≠ '/') :
    gapWidth ('/' :: s) = 0 := by
  have htext : ∀ c d, (c = '*' ∨ c = '/') → d = ['/', c] → ¬ d <+: '/' :: s := by
    rintro c d hc rfl ⟨r, hr⟩
    obtain rfl : c :: r = s := (List.cons.inj hr).2
    rcases hc with rfl | rfl
    · exact (h '*' rfl).1 rfl
    · exact (h '/' rfl).2 rfl
  have hblock : blockComment.width? ('/' :: s) = none :=
    width?_seq_eq_none.2 (.inl (width?_word_eq_none.2 (htext '*' _ (.inl rfl) rfl)))
  have hline : lineComment.width? ('/' :: s) = none :=
    width?_seq_eq_none.2 (.inl (width?_word_eq_none.2 (htext '/' _ (.inr rfl) rfl)))
  rw [gapWidth_eq_zero_iff]
  exact ⟨rfl, width?_alt_eq_none.2 ⟨hblock, width?_alt_eq_none.2 ⟨hline, rfl⟩⟩⟩

/-- A token begins neither with white space nor with a preprocessor mark. -/
lemma solid_of_mayBegin {t : Token} {c : Char} (h : t.mayBegin c = true) :
    isSolid c = true ∧ c ∉ ['\\', '#'] := by
  have hword : isWordStart c = true → isSolid c = true ∧ c ∉ ['\\', '#'] := by
    intro hstart
    refine ⟨solid_of (f := isWordStart) (by decide) c hstart, fun hmem => ?_⟩
    simp only [List.mem_cons, List.not_mem_nil, or_false] at hmem
    rcases hmem with rfl | rfl <;> cases hstart
  cases t with
  | endOfInput => cases h
  | keyword _ => exact hword h
  | identifier => exact hword h
  | constant =>
    simp only [Token.mayBegin, Bool.or_eq_true, decide_eq_true_eq] at h
    rcases h with ((h | rfl) | rfl) | h
    · refine ⟨solid_of (f := isDigit) (by decide) c h, fun hmem => ?_⟩
      simp only [List.mem_cons, List.not_mem_nil, or_false] at hmem
      rcases hmem with rfl | rfl <;> cases h
    · decide
    · decide
    · exact hword h
  | stringLiteral =>
    simp only [Token.mayBegin, Bool.or_eq_true, decide_eq_true_eq] at h
    rcases h with rfl | h
    · decide
    · exact hword h
  | punctuator p =>
    obtain ⟨-, hsolid, hnot, -⟩ := mayBegin_punctuator h
    simp only [List.mem_cons, List.not_mem_nil, or_false, not_or] at hnot ⊢
    exact ⟨hsolid, hnot.2.2⟩

/-- Only a slash may be the beginning of a token and of a gap. -/
lemma gapWidth_eq_zero_of_mayBegin {t : Token} {c : Char} (h : t.mayBegin c = true) (hc : c ≠ '/')
    (s : List Char) : gapWidth (c :: s) = 0 := by
  obtain ⟨hsolid, hnot⟩ := solid_of_mayBegin h
  refine gapWidth_eq_zero_of_head hsolid ?_ s
  simp only [List.mem_cons, List.not_mem_nil, or_false, not_or] at hnot ⊢
  exact ⟨hnot.1, hnot.2, hc⟩

/-- A token in front of white space is no comment. -/
theorem IsTokenText.gapWidth_append {u w : List Char} (h : IsTokenText u)
    (hw : Outside isSolid w) : gapWidth (u ++ w) = 0 := by
  obtain ⟨t, ht, hu⟩ := h
  obtain ⟨c, r, rfl, hc⟩ := head_of_width? ht hu
  by_cases hslash : c = '/'
  · subst hslash
    -- What stands behind the slash is the rest of the token, or white space.
    have hrest : ∀ p ∈ Punctuator.all, ∀ d ∈ (p.text.toList.drop 1).head?,
        p.text.toList.head? = some '/' → d ≠ '*' ∧ d ≠ '/' := by decide +kernel
    obtain ⟨p, rfl, -⟩ := exists_punctuator hc rfl (by decide)
    obtain ⟨hpre, hlen, -⟩ := width?_punctuator_eq_some.1 hu
    have hp : p.text.toList = '/' :: r := hpre.eq_of_length hlen.symm
    refine gapWidth_slash fun d hd => ?_
    cases r with
    | nil =>
      change d ∈ w.head? at hd
      exact ⟨by rintro rfl; exact absurd (hw _ hd) (by decide),
        by rintro rfl; exact absurd (hw _ hd) (by decide)⟩
    | cons e r =>
      obtain rfl : e = d := by simpa using hd
      exact hrest p p.mem_all e (by rw [hp]; rfl) (by rw [hp]; rfl)
  · exact gapWidth_eq_zero_of_mayBegin hc hslash _

end CTree.Lexical
