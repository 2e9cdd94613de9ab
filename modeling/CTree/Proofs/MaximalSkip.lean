import CTree.Proofs.Derivation

/-!
# Skipping is maximal and exact

What is skipped between two tokens is a row of items, and each kind of item has an end of
its own: a block comment its first closing mark, a line comment the first line end, and a
preprocessor line the first line end with no backslash in front of it. Behind the row no
item begins. This determines the place where skipping stops, and nothing is skipped there.
-/
namespace CTree.Lexical
open Pattern

/-! ## Where lines end -/

/-- A line end as a whole. A carriage return is not parted from the line feed behind it. -/
def WholeLineEnd (mark rest : List Char) : Prop :=
  IsLineEnd mark ∧ (mark = ['\r'] → rest.head? ≠ some '\n')

/-- A line end begins between two parts of a text, and no backslash stands in front of it.
The line feed behind a carriage return begins no line end. -/
def BareLineEnd (before after : List Char) : Prop :=
  (after.head? = some '\r' ∨ after.head? = some '\n' ∧ before.getLast? ≠ some '\r') ∧
    before.getLast? ≠ some '\\'

/-- What follows `front` is read up to the first bare line end or to the end of the text. -/
structure ToBareLineEnd (front line rest : List Char) : Prop where
  first : ∀ before after, line = before ++ after → after ≠ [] →
    ¬ BareLineEnd (front ++ before) (after ++ rest)
  ends : rest = [] ∨ BareLineEnd (front ++ line) rest

section Lines
variable {front line rest mark s : List Char} {n : Nat}

theorem width?_lineEnd_eq_some_iff :
    lineEnd.width? (mark ++ rest) = some mark.length ↔ WholeLineEnd mark rest := by
  constructor
  · intro h
    have hend := width?_lineEnd h
    rw [List.take_left] at hend
    refine ⟨hend, ?_⟩
    rintro rfl hfeed
    rw [List.eq_cons_of_mem_head? hfeed] at h
    cases h
  · rintro ⟨rfl | rfl | rfl, hwhole⟩
    · rfl
    · rfl
    · cases rest with
      | nil => rfl
      | cons c rest =>
        have hc : '\n' ≠ c := by
          rintro rfl
          exact hwhole rfl rfl
        simp [lineEnd, firstOf, text, width?_alt, width?_word, hc]

lemma isLineEnd_of_bareLineEnd {before after : List Char} {c : Char}
    (h : BareLineEnd before (c :: after)) : isLineEnd c = true := by
  rcases h.1 with hc | ⟨hc, -⟩
  · obtain rfl := Option.some.inj hc
    rfl
  · obtain rfl := Option.some.inj hc
    rfl

/-- A line end that no backslash and no part of it stands in front of is a bare one. -/
lemma bareLineEnd_concat {c d : Char} (hd : d ∈ s.head?) (hend : isLineEnd d = true)
    (hfeed : c = '\r' → d ≠ '\n') (hback : c ≠ '\\') : BareLineEnd (front ++ [c]) s := by
  rw [BareLineEnd, List.getLast?_concat, Option.mem_def.1 hd]
  refine ⟨?_, by simpa using hback⟩
  simp only [isLineEnd, Bool.or_eq_true, decide_eq_true_eq] at hend
  rcases hend with rfl | rfl
  · exact .inr ⟨rfl, fun hlast => hfeed (Option.some.inj hlast) rfl⟩
  · exact .inl rfl

lemma bareLineEnd_hash {d : Char} (hd : d ∈ s.head?) (hend : isLineEnd d = true) :
    BareLineEnd ['#'] s := by
  rw [← List.nil_append ['#']]
  exact bareLineEnd_concat hd hend (by simp) (by simp)

/-- What follows a joined line ends no line before it has begun. -/
lemma bareLineEnd_joined {d : Char} (h : WholeLineEnd mark s) (hd : d ∈ s.head?)
    (hend : isLineEnd d = true) : BareLineEnd (front ++ '\\' :: mark) s := by
  obtain ⟨init, c, hconcat, hfeed, hback⟩ : ∃ init c, '\\' :: mark = init ++ [c] ∧
      (c = '\r' → d ≠ '\n') ∧ c ≠ '\\' := by
    obtain ⟨rfl | rfl | rfl, hwhole⟩ := h
    · exact ⟨['\\'], '\n', rfl, by simp, by simp⟩
    · exact ⟨['\\', '\r'], '\n', rfl, by simp, by simp⟩
    · refine ⟨['\\'], '\r', rfl, ?_, by simp⟩
      rintro - rfl
      exact hwhole rfl hd
  rw [hconcat, ← List.append_assoc]
  exact bareLineEnd_concat hd hend hfeed hback

/-- Of two ways of reading a line up to a bare line end none goes on further. -/
lemma ToBareLineEnd.length_le {line' rest' : List Char} (h : ToBareLineEnd front line rest)
    (h' : ToBareLineEnd front line' rest') (heq : line ++ rest = line' ++ rest') :
    line'.length ≤ line.length := by
  by_contra hlt
  obtain ⟨more, rfl⟩ := List.prefix_of_prefix_length_le ⟨rest, heq⟩ ⟨rest', rfl⟩ (by omega)
  have hmore : more ≠ [] := by
    rintro rfl
    simp at hlt
  rw [List.append_assoc] at heq
  obtain rfl := List.append_cancel_left heq
  rcases h.ends with hnil | hbare
  · exact hmore (List.append_eq_nil_iff.1 hnil).1
  · exact h'.first line more rfl hmore hbare

/-- A piece with no bare line end in it is passed. -/
lemma ToBareLineEnd.append {piece : List Char}
    (hpiece : ∀ before after, piece = before ++ after → after ≠ [] →
      ¬ BareLineEnd (front ++ before) (after ++ (line ++ rest)))
    (h : ToBareLineEnd (front ++ piece) line rest) : ToBareLineEnd front (piece ++ line) rest where
  first := by
    intro before after heq hne
    rcases List.append_eq_append_iff.1 heq with ⟨t, rfl, rfl⟩ | ⟨t, rfl, rfl⟩
    · rw [← List.append_assoc]
      exact h.first t after rfl hne
    · by_cases ht : t = []
      · subst ht
        simpa using h.first [] line rfl hne
      · rw [List.append_assoc]
        exact hpiece before t rfl ht
  ends := by
    rw [← List.append_assoc]
    exact h.ends

/-- A character of the line is passed. -/
lemma ToBareLineEnd.char {c : Char} (hc : isLineEnd c = false)
    (h : ToBareLineEnd (front ++ [c]) line rest) : ToBareLineEnd front (c :: line) rest := by
  show ToBareLineEnd front ([c] ++ line) rest
  refine .append ?_ h
  intro before after heq hne hbare
  cases before with
  | nil =>
    subst heq
    rw [isLineEnd_of_bareLineEnd hbare] at hc
    cases hc
  | cons d before =>
    have hnil := (List.cons.inj heq).2
    exact hne (List.append_eq_nil_iff.1 hnil.symm).2

/-- A line end with a backslash in front of it is passed. -/
lemma ToBareLineEnd.joined (hmark : IsLineEnd mark)
    (h : ToBareLineEnd (front ++ '\\' :: mark) line rest) :
    ToBareLineEnd front ('\\' :: (mark ++ line)) rest := by
  show ToBareLineEnd front ('\\' :: mark ++ line) rest
  refine .append ?_ h
  intro before after heq hne hbare
  cases before with
  | nil =>
    subst heq
    cases isLineEnd_of_bareLineEnd hbare
  | cons c before =>
    obtain ⟨rfl, rfl⟩ := List.cons.inj heq
    cases before with
    | nil => exact hbare.2 List.getLast?_concat
    | cons d before =>
      -- Only the line feed behind a carriage return is left.
      obtain ⟨rfl, rfl, rfl⟩ : d = '\r' ∧ before = [] ∧ after = ['\n'] := by
        rcases hmark with hmark | hmark | hmark
        · simp_all
        · obtain ⟨rfl, hrest⟩ := List.cons.inj hmark
          cases before with
          | nil => exact ⟨rfl, rfl, hrest⟩
          | cons => simp_all
        · simp_all
      rcases hbare.1 with hhead | ⟨-, hlast⟩
      · cases hhead
      · exact hlast (by simp)

lemma joined_parts (h : (Pattern.seq (.text "\\") lineEnd).width? s = some n) :
    ∃ mark t, s = '\\' :: (mark ++ t) ∧ n = mark.length + 1 ∧ WholeLineEnd mark t := by
  obtain ⟨a, b, hback, hend, rfl⟩ := width?_seq_eq_some.1 h
  obtain ⟨⟨r, rfl⟩, rfl⟩ := width?_word_eq_some.1 hback
  rw [List.drop_left] at hend
  have hlength := List.length_take_of_le (width?_le_length hend)
  refine ⟨r.take b, r.drop b, by rw [List.take_append_drop]; rfl, ?_, ?_⟩
  · rw [hlength, Nat.add_comm]
    rfl
  · rw [← width?_lineEnd_eq_some_iff, List.take_append_drop, hlength, hend]

/-- The loop of a preprocessor line reads up to the first bare line end. -/
theorem toBareLineEnd_of_width?
    (h : (many (.alt (.seq (.text "\\") lineEnd) inLine)).width? s = some n)
    (hfront : ∀ c ∈ s.head?, isLineEnd c = true → BareLineEnd front s) :
    ToBareLineEnd front (s.take n) (s.drop n) := by
  have hc : Consuming (.alt (.seq (.text "\\") lineEnd) inLine) :=
    consuming_of_takesSome (by decide)
  refine many_induction (motive := fun s n => ∀ front,
    (∀ c ∈ s.head?, isLineEnd c = true → BareLineEnd front s) →
    ToBareLineEnd front (s.take n) (s.drop n)) hc ?_ ?_ h front hfront
  · intro s hs front hfront
    have hstop := atLineEnd_of_width?_inLine (width?_alt_eq_none.1 hs).2
    refine ⟨?_, ?_⟩
    · intro before after heq hne
      exact absurd (List.append_eq_nil_iff.1 heq.symm).2 hne
    · cases s with
      | nil => exact .inl rfl
      | cons c s => exact .inr (by simpa using hfront c rfl (hstop c rfl))
  · intro s a b ha _ ih front hfront
    rw [List.take_add, ← List.drop_drop]
    rcases width?_alt_eq_some.1 ha with ha | ⟨hjoin, ha⟩
    · obtain ⟨mark, r, rfl, rfl, hmark⟩ := joined_parts ha
      have hsplit : '\\' :: (mark ++ r) = ('\\' :: mark) ++ r := rfl
      rw [hsplit, ← List.length_cons (a := '\\'), List.drop_left] at ih ⊢
      rw [List.take_left]
      exact .joined hmark.1 (ih _ fun d hd hend => bareLineEnd_joined hmark hd hend)
    · obtain ⟨c, r, rfl, hcr, rfl⟩ := width?_one_eq_some.1 ha
      have hline : isLineEnd c = false := by simpa using hcr
      refine .char hline (ih (front ++ [c]) fun d hd hend => bareLineEnd_concat hd hend ?_ ?_)
      · rintro rfl
        cases hline
      · rintro rfl
        rcases width?_seq_eq_none.1 hjoin with hno | ⟨a₁, hback, hnone⟩
        · exact width?_word_eq_none.1 hno ⟨r, rfl⟩
        · obtain ⟨-, rfl⟩ := width?_word_eq_some.1 hback
          have hinside := not_isLineEnd_of_width?_lineEnd hnone d hd
          rw [hinside] at hend
          cases hend

end Lines

/-! ## Items -/

/-- An item of a gap, in front of the rest of the text. -/
inductive GapItem : List Char → List Char → Prop
  | blank {c rest} : c ∈ [' ', '\t', '\r', '\n'] → GapItem [c] rest
  | join {mark rest} : WholeLineEnd mark rest → GapItem ('\\' :: mark) rest
  | blockComment {body rest} : ¬ ['*', '/'] <:+: body →
      GapItem ('/' :: '*' :: (body ++ ['*', '/'])) rest
  | lineComment {body rest} : (∀ c ∈ body, isLineEnd c = false) → AtLineEnd rest →
      GapItem ('/' :: '/' :: body) rest
  | directive {body rest} : ToBareLineEnd ['#'] body rest → GapItem ('#' :: body) rest

/-- Items one behind the other in front of a rest. -/
inductive GapItems (rest : List Char) : List Char → Prop
  | nil : GapItems rest []
  | cons {item more} : GapItem item (more ++ rest) → GapItems rest more →
      GapItems rest (item ++ more)

/-- White space, a backslash in front of a line end, a comment that is closed further on, or the
mark of a line comment or of a preprocessor line stands at the head of the text. -/
inductive ItemBegins : List Char → Prop
  | blank {c s} : c ∈ [' ', '\t', '\r', '\n'] → ItemBegins (c :: s)
  | join {mark s} : IsLineEnd mark → ItemBegins ('\\' :: (mark ++ s))
  | blockComment {s} : ['*', '/'] <:+: s → ItemBegins ('/' :: '*' :: s)
  | lineComment {s} : ItemBegins ('/' :: '/' :: s)
  | directive {s} : ItemBegins ('#' :: s)

variable {item rest s : List Char} {n : Nat}

theorem GapItem.begins (h : GapItem item rest) : ItemBegins (item ++ rest) := by
  cases h with
  | blank hc => exact .blank hc
  | join hmark => exact .join hmark.1
  | @blockComment body =>
    refine .blockComment ⟨body, rest, ?_⟩
    show body ++ ['*', '/'] ++ rest = _
    rfl
  | lineComment => exact .lineComment
  | directive => exact .directive

theorem gapItem_of_blank (h : blank.width? s = some n) : GapItem (s.take n) (s.drop n) := by
  rcases width?_alt_eq_some.1 h with h | ⟨-, h⟩
  · obtain ⟨c, r, rfl, hc, rfl⟩ := width?_one_eq_some.1 h
    exact .blank (by simpa using hc)
  · obtain ⟨mark, r, rfl, rfl, hmark⟩ := joined_parts h
    simpa using GapItem.join hmark

theorem gapItem_of_comment (h : comment.width? s = some n) : GapItem (s.take n) (s.drop n) := by
  rcases width?_alt_eq_some.1 h with h | ⟨-, h⟩
  · obtain ⟨body, r, rfl, hbody, rfl⟩ := blockComment_parts h
    have hitem : GapItem ('/' :: '*' :: (body ++ ['*', '/'])) r := .blockComment hbody
    have hsplit : '/' :: '*' :: (body ++ ('*' :: '/' :: r)) =
        '/' :: '*' :: (body ++ ['*', '/']) ++ r := by simp
    have hlength : body.length + 4 = ('/' :: '*' :: (body ++ ['*', '/'])).length := by simp
    rwa [hsplit, hlength, List.take_left, List.drop_left]
  · rcases width?_alt_eq_some.1 h with h | ⟨-, h⟩
    · obtain ⟨body, r, rfl, rfl, hbody, hstop⟩ := lineComment_parts h
      simpa using GapItem.lineComment hbody hstop
    · obtain ⟨a, b, ha, hb, rfl⟩ := width?_seq_eq_some.1 h
      obtain ⟨⟨r, rfl⟩, rfl⟩ := width?_word_eq_some.1 ha
      rw [List.drop_left] at hb
      rw [List.take_add, ← List.drop_drop, List.drop_left]
      exact .directive (toBareLineEnd_of_width? hb fun c hc hend => bareLineEnd_hash hc hend)

lemma width?_lineComment {body : List Char} (hbody : ∀ c ∈ body, isLineEnd c = false)
    (hstop : AtLineEnd rest) :
    lineComment.width? ('/' :: '/' :: body ++ rest) = some ('/' :: '/' :: body).length := by
  have hrun : (body ++ rest).takeWhile (fun c => !isLineEnd c) = body := by
    rw [List.takeWhile_append_of_pos fun c hc => by simp [hbody c hc]]
    cases rest with
    | nil => simp
    | cons c rest => simp [hstop c rfl]
  refine width?_seq_eq_some.2 ⟨2, body.length, rfl, ?_, Nat.add_comm body.length 2⟩
  show inLine.many.width? (body ++ rest) = _
  rw [inLine, width?_many_one, hrun]

lemma width?_directive {body : List Char} (h : ToBareLineEnd ['#'] body rest) :
    directive.width? ('#' :: body ++ rest) = some ('#' :: body).length := by
  obtain ⟨n, hn⟩ : ∃ n, (many (.alt (.seq (.text "\\") lineEnd) inLine)).width? (body ++ rest) =
      some n := ⟨_, rfl⟩
  have hread : ToBareLineEnd ['#'] _ _ :=
    toBareLineEnd_of_width? hn fun c hc hend => bareLineEnd_hash hc hend
  have hsplit : body ++ rest = (body ++ rest).take n ++ (body ++ rest).drop n :=
    (List.take_append_drop n _).symm
  have hlength := List.length_take_of_le (width?_le_length hn)
  have hle := h.length_le hread hsplit
  have hge := hread.length_le h hsplit.symm
  obtain rfl : n = body.length := by omega
  exact width?_seq_eq_some.2 ⟨1, body.length, rfl, hn, Nat.add_comm _ _⟩

/-- Nothing but the item is taken from its beginning on. -/
theorem GapItem.gapWidth_append (h : GapItem item rest) :
    gapWidth (item ++ rest) = item.length + gapWidth rest := by
  cases h with
  | @blank c _ hc =>
    have hblank : Lexical.blank.width? (c :: rest) = some 1 :=
      width?_alt_of_some (width?_one_eq_some.2 ⟨c, rest, rfl, by simpa using hc, rfl⟩)
    exact gapWidth_of_blank hblank
  | @join mark _ hmark =>
    have hblank : Lexical.blank.width? ('\\' :: mark ++ rest) = some ('\\' :: mark).length :=
      (width?_alt_of_none rfl).trans (width?_seq_eq_some.2
        ⟨1, mark.length, rfl, width?_lineEnd_eq_some_iff.2 hmark, Nat.add_comm _ _⟩)
    rw [gapWidth_of_blank hblank, List.drop_left]
  | @blockComment body _ hbody =>
    have hwidth := gapWidth_blockComment hbody rest
    simpa using hwidth
  | @lineComment body _ hbody hstop =>
    have hcomment :
        comment.width? ('/' :: '/' :: body ++ rest) = some ('/' :: '/' :: body).length :=
      (width?_alt_of_none rfl).trans (width?_alt_of_some (width?_lineComment hbody hstop))
    rw [gapWidth_of_comment hcomment, List.drop_left]
  | @directive body _ hbody =>
    have hcomment : comment.width? ('#' :: body ++ rest) = some ('#' :: body).length :=
      (width?_alt_of_none rfl).trans ((width?_alt_of_none rfl).trans (width?_directive hbody))
    rw [gapWidth_of_comment hcomment, List.drop_left]

theorem GapItems.gapWidth_append {gap : List Char} (h : GapItems rest gap) :
    gapWidth (gap ++ rest) = gap.length + gapWidth rest := by
  induction h with
  | nil => simp
  | cons hitem _ ih =>
    rw [List.append_assoc, hitem.gapWidth_append, ih, List.length_append, Nat.add_assoc]

/-- What is skipped at the head of a text is a row of items. -/
theorem gapItems_take_gapWidth (s : List Char) :
    GapItems (s.drop (gapWidth s)) (s.take (gapWidth s)) := by
  induction hm : s.length using Nat.strongRecOn generalizing s with
  | ind m ih =>
    have hturn {n : Nat} (hitem : GapItem (s.take n) (s.drop n)) (hpos : 0 < n)
        (hle : n ≤ s.length) (heq : gapWidth s = n + gapWidth (s.drop n)) :
        GapItems (s.drop (gapWidth s)) (s.take (gapWidth s)) := by
      have hmore := ih (s.drop n).length (by rw [List.length_drop]; omega) (s.drop n) rfl
      rw [List.drop_drop] at hmore
      rw [heq, List.take_add]
      refine .cons ?_ hmore
      rwa [← List.drop_drop, List.take_append_drop]
    cases hb : blank.width? s with
    | some n =>
      exact hturn (gapItem_of_blank hb) (consuming_blank s n hb) (width?_le_length hb)
        (gapWidth_of_blank hb)
    | none =>
      cases hc : comment.width? s with
      | some n =>
        exact hturn (gapItem_of_comment hc) (consuming_comment s n hc) (width?_le_length hc)
          (gapWidth_of_comment hc)
      | none =>
        rw [gapWidth_eq_zero_iff.2 ⟨hb, hc⟩]
        exact .nil

/-- Something is skipped where an item begins, and nowhere else. -/
theorem itemBegins_iff : ItemBegins s ↔ gapWidth s ≠ 0 := by
  constructor
  · intro h hzero
    obtain ⟨hblank, hcomment⟩ := gapWidth_eq_zero_iff.1 hzero
    cases h with
    | @blank c s hc =>
      have hitem : GapItem [c] s := .blank hc
      have hwidth := hitem.gapWidth_append
      rw [List.singleton_append, hzero, List.length_singleton] at hwidth
      omega
    | @join mark s hmark =>
      rcases width?_seq_eq_none.1 (width?_alt_eq_none.1 hblank).2 with hno | ⟨a, hback, hnone⟩
      · cases hno
      · obtain ⟨-, rfl⟩ := width?_word_eq_some.1 hback
        have hinside := not_isLineEnd_of_width?_lineEnd hnone
        rcases hmark with rfl | rfl | rfl
        · cases hinside '\n' rfl
        · cases hinside '\r' rfl
        · cases hinside '\r' rfl
    | blockComment hclosed => exact gapWidth_open_eq_zero_iff.1 hzero hclosed
    | lineComment => cases (width?_alt_eq_none.1 (width?_alt_eq_none.1 hcomment).2).1
    | directive => cases (width?_alt_eq_none.1 (width?_alt_eq_none.1 hcomment).2).2
  · intro h
    have hle := gapWidth_le_length s
    have hitems := gapItems_take_gapWidth s
    generalize hgap : s.take (gapWidth s) = gap at hitems
    cases hitems with
    | nil =>
      have hlength := congrArg List.length hgap
      rw [List.length_take_of_le hle] at hlength
      exact absurd hlength h
    | cons hitem _ =>
      have hbegins := hitem.begins
      rwa [← List.append_assoc, ← hgap, List.take_append_drop] at hbegins

end CTree.Lexical

namespace CTree.Parse
open CTree.Lexical CTree.Text

/-- Skipping goes on over a row of items to the place where no item begins, and nothing is
skipped there. -/
theorem skipGap_maximal (here : Cursor) :
    (∀ stop, skipGap here = stop ↔ ∃ gap, here.rest = gap ++ stop.rest ∧
      stop.offset = here.offset + byteCount gap ∧ GapItems stop.rest gap ∧
      ¬ ItemBegins stop.rest) ∧
    skipGap (skipGap here) = skipGap here := by
  have hstop := gapWidth_skipGap here
  refine ⟨fun stop => ⟨?_, ?_⟩, skipGap_of_gapWidth hstop⟩
  · rintro rfl
    refine ⟨here.rest.take (gapWidth here.rest), ?_, Cursor.advance_offset _ _, ?_, ?_⟩
    · rw [skipGap_rest, List.take_append_drop]
    · rw [skipGap_rest]
      exact gapItems_take_gapWidth here.rest
    · rw [itemBegins_iff, not_not]
      exact hstop
  · rintro ⟨gap, hrest, hoffset, hitems, hend⟩
    rw [itemBegins_iff, not_not] at hend
    have hwidth : gapWidth here.rest = gap.length := by
      rw [hrest, hitems.gapWidth_append, hend, Nat.add_zero]
    rw [skipGap, hwidth, Cursor.advance_eq, hrest, List.take_left, List.drop_left, ← hoffset]

end CTree.Parse
