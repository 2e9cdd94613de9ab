import CTree.Proofs.Neighbours

/-!
# Rows of words

A text is a row of words where each word stands behind a gap and the text behind a
word has no say in what is read from it. A text that was read is such a row: a word
that would give away a part of itself stands nowhere in front of a token that takes
up there.
-/
namespace CTree.Parse
open CTree.Grammar CTree.Lexical CTree.Lexical.Pattern CTree.Text

/-- The words in a row, each behind a gap, up to a text that is left. -/
inductive RowTo (final : List Char) : List (List Char) → List Char → Prop
  | done {s} : s.drop (gapWidth s) = final → RowTo final [] s
  | word {s u v words} : s.drop (gapWidth s) = u ++ v → Stands u v → RowTo final words v →
      RowTo final (u :: words) s

/-- The words of a whole text. -/
abbrev Row := RowTo []

section RowTo
variable {final : List Char} {words : List (List Char)} {s : List Char}

theorem rowTo_drop_gapWidth_iff : RowTo final words (s.drop (gapWidth s)) ↔ RowTo final words s := by
  have hdrop : (s.drop (gapWidth s)).drop (gapWidth (s.drop (gapWidth s))) =
      s.drop (gapWidth s) := by
    rw [gapWidth_drop_gapWidth, List.drop_zero]
  constructor
  · intro h
    cases h with
    | done hend => exact .done (by rwa [hdrop] at hend)
    | word hs hu hrest => exact .word (by rwa [hdrop] at hs) hu hrest
  · intro h
    cases h with
    | done hend => exact .done (by rwa [hdrop])
    | word hs hu hrest => exact .word (by rwa [hdrop]) hu hrest

theorem RowTo.suffix (h : RowTo final words s) : final <:+ s := by
  induction h with
  | done hend =>
    rw [← hend]
    exact List.drop_suffix _ _
  | @word s u v words hs _ _ ih =>
    have hsuffix : u ++ v <:+ s := by
      rw [← hs]
      exact List.drop_suffix _ _
    exact ih.trans ((List.suffix_append u v).trans hsuffix)

theorem RowTo.gapWidth_final (h : RowTo final words s) : gapWidth final = 0 := by
  induction h with
  | done hend =>
    rw [← hend]
    exact gapWidth_drop_gapWidth _
  | word _ _ _ ih => exact ih

/-- The words say where they end. -/
theorem RowTo.final_unique {other : List Char} (h : RowTo final words s)
    (h' : RowTo other words s) : final = other := by
  induction h with
  | done hend =>
    cases h' with
    | done hend' => exact hend.symm.trans hend'
  | word hs _ _ ih =>
    cases h' with
    | word hs' _ h' =>
      obtain rfl := List.append_cancel_left (hs.symm.trans hs')
      exact ih h'

/-- Where nothing but a gap is left in front of the final text, no words are left. -/
theorem RowTo.words_eq_nil (h : RowTo final words s) (hend : s.drop (gapWidth s) = final) :
    words = [] := by
  cases h with
  | done _ => rfl
  | @word _ u v words hs hu hrest =>
    have hlength := congrArg List.length (hend.symm.trans hs)
    have hpos := List.length_pos_iff.2 hu.isTokenText.ne_nil
    have hle := hrest.suffix.length_le
    rw [List.length_append] at hlength
    omega

/-- A row goes on behind each of its words. -/
theorem rowTo_append_iff {front more : List (List Char)} {u : List Char} :
    RowTo final (front ++ u :: more) s ↔
      ∃ v, RowTo (u ++ v) front s ∧ Stands u v ∧ RowTo final more v := by
  induction front generalizing s with
  | nil =>
    constructor
    · intro h
      cases h with
      | @word _ _ v _ hs hu hrest => exact ⟨v, .done hs, hu, hrest⟩
    · rintro ⟨v, h, hu, hrest⟩
      cases h with
      | done hs => exact .word hs hu hrest
  | cons w front ih =>
    constructor
    · intro h
      cases h with
      | word hs hw hrest =>
        obtain ⟨v, hfront, hv⟩ := ih.1 hrest
        exact ⟨v, .word hs hw hfront, hv⟩
    · rintro ⟨v, h, hv⟩
      cases h with
      | word hs hw hfront => exact .word hs hw (ih.2 ⟨v, hfront, hv⟩)

/-- The word that the final text begins with is one more word of the row. -/
theorem RowTo.snoc {u v : List Char} (h : RowTo (u ++ v) words s) (hu : Stands u v)
    (hv : gapWidth v = 0) : RowTo v (words ++ [u]) s :=
  rowTo_append_iff.2 ⟨v, h, hu, .done (by rw [hv, List.drop_zero])⟩

end RowTo

/-! ## From words to rows -/

theorem Passes.token_ne {here stop : Cursor} {words : List Leaf} (h : Passes here words stop) :
    ∀ w ∈ words, w.token ≠ .endOfInput := by
  induction h with
  | stay => simp
  | skip _ ih => exact ih
  | word _ ht _ _ ih =>
    intro w hw
    rcases List.mem_cons.1 hw with rfl | hw
    · exact ht
    · exact ih w hw

/-- Behind a gap the first word is read. -/
theorem Passes.next {here stop : Cursor} {w : Leaf} {words : List Leaf}
    (h : Passes here (w :: words) stop) :
    ∃ n, w.token.width? (skipGap here).rest = some n ∧ w.start = (skipGap here).offset ∧
      w.text = (skipGap here).rest.take n ∧ Passes ((skipGap here).advance n) words stop := by
  generalize hws : w :: words = ws at h
  induction h with
  | stay => cases hws
  | @skip here _ _ _ ih =>
    have hnext := ih hws
    rwa [skipGap_of_gapWidth (gapWidth_skipGap here)] at hnext
  | @word here t n _ _ hgap _ hn hrest _ =>
    cases hws
    rw [skipGap_of_gapWidth hgap]
    exact ⟨n, hn, rfl, rfl, hrest⟩

theorem Passes.reaches {here stop : Cursor} {words : List Leaf} (h : Passes here words stop) :
    here.Reaches stop := by
  induction h with
  | stay => exact .refl _
  | skip _ ih => exact (reaches_skipGap _).trans ih
  | word _ _ _ _ ih => exact (Cursor.reaches_advance _ _).trans ih

/-- The place of one of the words. -/
theorem Passes.split {here stop : Cursor} {before after : List Leaf} {w : Leaf}
    (h : Passes here (before ++ w :: after) stop) :
    ∃ mid n, Passes here before mid ∧ gapWidth mid.rest = 0 ∧
      w.token.width? mid.rest = some n ∧ w.start = mid.offset ∧ w.text = mid.rest.take n ∧
      Passes (mid.advance n) after stop := by
  induction before generalizing here with
  | nil =>
    obtain ⟨n, hn, hstart, htext, hrest⟩ := h.next
    exact ⟨skipGap here, n, .skip .stay, gapWidth_skipGap here, hn, hstart, htext, hrest⟩
  | cons v before ih =>
    obtain ⟨k, hk, hstart, htext, hrest⟩ := h.next
    obtain ⟨mid, n, hbefore, hmid⟩ := ih hrest
    have hv : v = ⟨v.token, (skipGap here).offset, (skipGap here).rest.take k⟩ := by
      rw [← hstart, ← htext]
    refine ⟨mid, n, ?_, hmid⟩
    rw [hv]
    exact .skip (.word (gapWidth_skipGap here) (h.token_ne v List.mem_cons_self) hk hbefore)

theorem Passes.nothing {here stop : Cursor} (h : Passes here [] stop) :
    skipGap stop = skipGap here := by
  generalize hws : ([] : List Leaf) = ws at h
  induction h with
  | stay => rfl
  | @skip here _ _ _ ih => rw [ih hws, skipGap_of_gapWidth (gapWidth_skipGap here)]
  | word => cases hws

/-- Characters that begin no gap and are not read by the next word do not follow. -/
theorem Passes.outside {K : Char → Bool} {here stop : Cursor} {words : List Leaf}
    (h : Passes here words stop) (hgap : ∀ c s, K c = true → gapWidth (c :: s) = 0)
    (hend : words = [] → Outside K (skipGap stop).rest)
    (hnone : ∀ w ∈ words.head?, ∀ c s, K c = true → w.token.width? (c :: s) = none) :
    Outside K here.rest := by
  intro c hc
  by_contra hin
  have hin : K c = true := by simpa using hin
  have hr := List.eq_cons_of_mem_head? hc
  have hhere : gapWidth here.rest = 0 := by
    rw [hr]
    exact hgap c _ hin
  cases words with
  | nil =>
    have hout := hend rfl
    rw [h.nothing, skipGap_of_gapWidth hhere, hr, outside_cons, hin] at hout
    cases hout
  | cons w words =>
    obtain ⟨n, hn, -⟩ := h.next
    rw [skipGap_of_gapWidth hhere] at hn
    rw [hr, hnone w rfl c _ hin] at hn
    cases hn

/-- What a token gives away is not taken up where no token follows that clashes with it. -/
theorem Passes.outside_snags {here stop : Cursor} {words : List Leaf} {t : Token}
    (h : Passes here words stop) (hend : words = [] → Outside t.snags (skipGap stop).rest)
    (hclash : ∀ w ∈ words.head?, t.clash w.token = false) : Outside t.snags here.rest :=
  h.outside (fun _ s hc => gapWidth_of_snag hc s) hend
    fun w hw _ s hc => width?_of_snag hc (hclash w hw) s

/-- Words without a clash are a row, if the last one leaves no snag. -/
theorem Passes.rowTo {here stop : Cursor} {words : List Leaf} (h : Passes here words stop)
    (hlast : ∀ w ∈ words.getLast?, Outside w.token.snags (skipGap stop).rest)
    (hchain : (words.map (·.token)).IsChain fun t next => t.clash next = false) :
    RowTo (skipGap stop).rest (words.map (·.text)) here.rest := by
  induction h with
  | stay => exact .done (skipGap_rest _).symm
  | @skip here _ _ _ ih =>
    have hrow := ih hlast hchain
    rw [skipGap_rest here] at hrow
    exact rowTo_drop_gapWidth_iff.1 hrow
  | @word here t n words stop hgap ht hn hrest ih =>
    have hwhole : t.width? (here.rest.take n ++ here.rest.drop n) =
        some (here.rest.take n).length := Pattern.width?_take_append_drop hn
    have hclash : ∀ w ∈ words.head?, t.clash w.token = false := by
      intro w hw
      refine hchain.rel_head? ?_
      rw [List.head?_map, Option.mem_def.1 hw]
      rfl
    have hnone : words = [] → Outside t.snags (skipGap stop).rest := by
      rintro rfl
      exact hlast _ rfl
    have hsnag := hrest.outside_snags hnone hclash
    rw [Cursor.advance_rest] at hsnag
    have hlast' : ∀ w ∈ words.getLast?, Outside w.token.snags (skipGap stop).rest := by
      intro w hw
      refine hlast w ?_
      rw [List.getLast?_cons, Option.mem_def.1 hw]
      rfl
    have hrow := ih hlast' (by rw [List.map_cons] at hchain; exact hchain.tail)
    rw [Cursor.advance_rest] at hrow
    refine .word ?_ ⟨t, ht, hwhole, hsnag⟩ hrow
    rw [hgap, List.drop_zero, List.take_append_drop]

/-- In front of each of the words stands a row of words. -/
theorem Passes.row_before {here stop : Cursor} {before after : List Leaf} {w : Leaf}
    (h : Passes here (before ++ w :: after) stop)
    (hchain : ((before ++ w :: after).map (·.token)).IsChain fun t next => t.clash next = false) :
    ∃ mid n, here.Reaches mid ∧ RowTo mid.rest (before.map (·.text)) here.rest ∧
      w.token.width? mid.rest = some n ∧ w.start = mid.offset ∧ w.text = mid.rest.take n := by
  have ht := h.token_ne w (by simp)
  obtain ⟨mid, n, hbefore, hgap, hn, hstart, htext, hafter⟩ := h.split
  have hskip := skipGap_of_gapWidth hgap
  rw [List.map_append] at hchain
  -- The last of the words in front gives nothing away.
  have hlast : ∀ v ∈ before.getLast?, Outside v.token.snags (skipGap mid).rest := by
    intro v hv
    rw [hskip]
    have hw : w = ⟨w.token, mid.offset, mid.rest.take n⟩ := by rw [← hstart, ← htext]
    have hrow : Passes mid (w :: after) stop := by
      rw [hw]
      exact .word hgap ht hn hafter
    refine hrow.outside_snags (fun h => by cases h) fun x hx => ?_
    obtain rfl : w = x := by simpa using hx
    refine (List.isChain_append.1 hchain).2.2 v.token ?_ w.token rfl
    rw [List.getLast?_map, Option.mem_def.1 hv]
    rfl
  have hrow := hbefore.rowTo hlast hchain.left_of_append
  rw [hskip] at hrow
  exact ⟨mid, n, hbefore.reaches, hrow, hn, hstart, htext⟩

theorem Passes.stop_eq {here stop : Cursor} (h : Passes here [] stop)
    (hgap : gapWidth here.rest = 0) : stop = here := by
  generalize hws : ([] : List Leaf) = ws at h
  induction h with
  | stay => rfl
  | @skip here _ _ _ ih =>
    have hskip := skipGap_of_gapWidth hgap
    rw [hskip] at ih
    exact ih hgap hws
  | word => cases hws

/-- Words that are a row end where the row ends. -/
theorem Passes.stop_of_row {here stop : Cursor} {before : List Leaf} {w : Leaf}
    {final : List Char} (h : Passes here (before ++ [w]) stop)
    (hrow : RowTo (w.text ++ final) (before.map (·.text)) here.rest)
    (hfinal : gapWidth final = 0) :
    stop.rest = final := by
  -- A word that was read has the length of its text.
  have hwidth : ∀ {t : Token} {s u v : List Char} {n : Nat}, t.width? s = some n → s = u ++ v →
      u = s.take n → s.drop n = v := by
    rintro t s u v n hn rfl hu
    have hlength := congrArg List.length hu
    have hle := Pattern.width?_le_length hn
    rw [List.length_take, Nat.min_eq_left hle] at hlength
    rw [← hlength, List.drop_left]
  induction before generalizing here with
  | nil =>
    obtain ⟨n, hn, -, htext, hrest⟩ := h.next
    cases hrow with
    | done hend =>
      rw [skipGap_rest] at hn htext
      have hdrop := hwidth hn hend htext
      have hstop := hrest.stop_eq (by rw [Cursor.advance_rest, skipGap_rest, hdrop, hfinal])
      rw [hstop, Cursor.advance_rest, skipGap_rest, hdrop]
  | cons v before ih =>
    obtain ⟨n, hn, -, htext, hrest⟩ := h.next
    cases hrow with
    | word hs _ hrow =>
      rw [skipGap_rest] at hn htext
      have hdrop := hwidth hn hs htext
      refine ih hrest ?_
      rwa [Cursor.advance_rest, skipGap_rest, hdrop]

/-- What was read is a chain of words without a clash. -/
theorem Reads.passes_words {e : Expr Rule} {here stop : Cursor} {nodes : List Node}
    (h : Reads (.once e) here (some (nodes, stop))) (hin : e.inner = true) (hapart : e.Apart)
    (hgap : gapWidth here.rest = 0) :
    Passes here (Node.words nodes) stop ∧
      ((Node.words nodes).map (·.token)).IsChain fun t next => t.clash next = false := by
  obtain ⟨words, htips, hpasses⟩ := h.passes hin hgap
  have hwords := Node.words_eq htips hpasses.token_ne
  exact ⟨by rwa [hwords], h.no_clash hin hapart⟩

theorem apart_source : (Expr.opt (.rule Rule.translationUnit)).Apart := fun _ _ => rfl

/-- The words of a source are the words of its translation unit. -/
theorem Node.words_source (offset place : Nat) (inside : List Node) :
    words [.branch .compilationUnit 0 offset (inside ++ [.leaf .endOfInput place []])] =
      words inside := by
  rw [words_branch (by simp), words_append]
  exact List.append_nil _

/-- A source that is accepted consists of the words of its tree. -/
theorem passes_of_parse {source : List Char} {root : Node} (h : parse source = .ok root) :
    ∃ stop, Passes (.start source) (Node.words [root]) stop ∧ (skipGap stop).rest = [] ∧
      ((Node.words [root]).map (·.token)).IsChain fun t next => t.clash next = false := by
  obtain ⟨inside, stop, hinside, hend, rfl⟩ := parse_eq_ok_iff_inside.1 h
  obtain ⟨hpasses, hchain⟩ := hinside.passes_words rfl apart_source (gapWidth_skipGap _)
  rw [Node.words_source]
  exact ⟨stop, .skip hpasses, hend, hchain⟩

end CTree.Parse
