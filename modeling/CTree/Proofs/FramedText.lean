import CTree.Proofs.BracketLevel
import CTree.Proofs.RowChange

/-!
# A text in front of another

A rule that matches all of a text matches it in front of another text too, with the same
labels, if no token of the other text goes on with it. So it is in front of a closing
parenthesis; and a rule that does not match all of the text is not followed by the
parenthesis there.
-/
namespace CTree.Parse
open CTree.Grammar CTree.Lexical CTree.Lexical.Pattern CTree.Text

/-- The rule matches all of the text. -/
structure Matches (r : Rule) (text : List Char) (root : Node) : Prop where
  parse : parseWith (.rule r) text = .ok root
  stop : root.stop = byteCount text

/-- The text begins and ends with a word of its tree. -/
structure Trimmed (text : List Char) (root : Node) : Prop where
  first : gapWidth text = 0
  last : ∃ w ∈ (Node.words [root]).getLast?, w.start + byteCount w.text = byteCount text

theorem rest_eq_nil_of_offset {text : List Char} {stop : Cursor}
    (h : (Cursor.start text).Reaches stop) (hoffset : stop.offset = byteCount text) :
    stop.rest = [] := by
  obtain ⟨s, hs, ho⟩ := h
  have hcount : byteCount text = byteCount s + byteCount stop.rest := by
    rw [← byteCount_append]
    exact congrArg byteCount hs
  have hstart : (Cursor.start text).offset = 0 := rfl
  exact byteCount_eq_zero_iff.1 (by omega)

theorem matches_iff {r : Rule} {text : List Char} {root : Node} :
    Matches r text root ↔
      Reads (.once (.rule r)) (.start text) (some ([root], ⟨byteCount text, []⟩)) := by
  constructor
  · rintro ⟨hparse, hstop⟩
    obtain ⟨⟨offset, rest⟩, hreads⟩ := parseWith_eq_ok_iff.1 hparse
    have hreach := hreads.reaches
    cases hreads with
    | rule hbody =>
      obtain rfl : offset = byteCount text := hstop
      obtain rfl : rest = [] := rest_eq_nil_of_offset hreach rfl
      exact .rule hbody
  · intro hreads
    refine ⟨parseWith_eq_ok_iff.2 ⟨_, hreads⟩, ?_⟩
    cases hreads with
    | rule _ => rfl

/-- A rule that comes to the end of the text matches all of it. -/
theorem Reads.matches_of_end {r : Rule} {text : List Char} {root : Node} {stop : Cursor}
    (h : Reads (.once (.rule r)) (.start text) (some ([root], stop))) (hend : stop.rest = []) :
    Matches r text root := by
  obtain ⟨s, hs, ho⟩ := h.reaches
  rw [hend, List.append_nil] at hs
  obtain ⟨offset, rest⟩ := stop
  obtain rfl : rest = [] := hend
  obtain rfl : text = s := hs
  obtain rfl : offset = byteCount text := ho.trans (Nat.zero_add _)
  exact matches_iff.2 h

theorem Matches.unique {r : Rule} {text : List Char} {root other : Node} (h : Matches r text root)
    (h' : Matches r text other) : root = other :=
  Except.ok.inj (h.parse.symm.trans h'.parse)

/-- What is computed of the tree that is read holds of the root. -/
theorem Matches.eq_of_map {r : Rule} {text : List Char} {root : Node} {A : Type} {f : Node → A}
    {a : A} (h : Matches r text root)
    (hmap : (parseWith (.rule r) text).toOption.map f = some a) : f root = a := by
  rw [h.parse] at hmap
  exact Option.some.inj hmap

theorem not_matches_of_isNone {r : Rule} {text : List Char}
    (h : (parseWith (.rule r) text).toOption.isNone = true) (root : Node) :
    ¬ Matches r text root := by
  intro hroot
  rw [hroot.parse] at h
  cases h

/-- A text is matched and trimmed if its tree ends where the last word and the text end. -/
lemma exists_trimmed (r : Rule) (text : List Char) (hgap : gapWidth text = 0)
    (h : (parseWith (.rule r) text).toOption.map (fun root => (root.stop,
      (Node.words [root]).getLast?.map fun w => w.start + byteCount w.text)) =
        some (byteCount text, some (byteCount text))) :
    ∃ root, Matches r text root ∧ Trimmed text root := by
  obtain ⟨root, hparse, hstop⟩ := exists_ok_of_map h
  obtain ⟨hwhole, hlast⟩ := Prod.mk.inj hstop
  obtain ⟨w, hw, hend⟩ := Option.map_eq_some_iff.1 hlast
  exact ⟨root, ⟨hparse, hwhole⟩, hgap, w, hw, hend⟩

/-! ## The words of the text stay -/

theorem skipGap_start {text : List Char} (hgap : gapWidth text = 0) :
    skipGap (.start text) = .start text :=
  skipGap_of_gapWidth hgap

/-- A text with its last word, which stands in front of the other text as it stands alone. -/
structure Framed (front : List (List Char)) (last text final : List Char) : Prop where
  stands : Stands last final
  row : RowTo last front text
  row' : RowTo (last ++ final) front (text ++ final)
  gap : gapWidth text = 0
  gap' : gapWidth final = 0

namespace Framed
variable {front : List (List Char)} {last text final : List Char}

theorem alone (h : Framed front last text final) : RowTo [] (front ++ [last]) text := by
  have hstands := h.stands.isTokenText.stands (outside_nil isSolid)
  exact RowTo.snoc (by rw [List.append_nil]; exact h.row) hstands rfl

theorem framed (h : Framed front last text final) :
    RowTo final (front ++ [last]) (text ++ final) :=
  h.row'.snoc h.stands h.gap'

theorem aligned (h : Framed front last text final) (offset : Nat) :
    Aligned ⟨front ++ [last], [], final⟩ [] (.start text) ⟨offset, text ++ final⟩ :=
  ⟨front ++ [last], rfl, h.alone, h.framed⟩

/-- The text alone. -/
theorem bare (h : Framed front last text final) : Framed front last text [] where
  stands := h.stands.isTokenText.stands (outside_nil isSolid)
  row := h.row
  row' := by rw [List.append_nil, List.append_nil]; exact h.row
  gap := h.gap
  gap' := rfl

end Framed

/-- A text that a rule matches is the row of its words. -/
theorem Matches.row {r : Rule} {text : List Char} {root : Node} (h : Matches r text root)
    (hr : r ≠ .compilationUnit) (hgap : gapWidth text = 0) :
    Row (Node.wordTexts [root]) text := by
  obtain ⟨hpasses, hchain⟩ := (matches_iff.1 h).passes_words (Expr.inner_rule_iff.2 hr)
    (fun _ _ => rfl) hgap
  exact hpasses.rowTo (fun _ _ => outside_nil _) hchain

/-- The leaves of its tree are its words. -/
theorem Matches.leaves_eq {r : Rule} {text : List Char} {root : Node} (h : Matches r text root)
    (hr : r ≠ .compilationUnit) (hgap : gapWidth text = 0) :
    root.toTree.leaves = (Node.wordTexts [root]).map String.ofList := by
  obtain ⟨words, htips, hpasses⟩ := (matches_iff.1 h).passes (Expr.inner_rule_iff.2 hr) hgap
  rw [Node.toTree, Rose.leaves_toTree, Node.leaves_toRose, htips, List.map_map, Node.wordTexts,
    Node.words_eq htips hpasses.token_ne, List.map_map]
  exact (hpasses.woven rfl).labels

/-- The last word of a text that a rule matches, behind the other words in a row. -/
theorem Matches.last_word {r : Rule} {text : List Char} {root : Node} (h : Matches r text root)
    (hr : r ≠ .compilationUnit) (htrim : Trimmed text root) :
    ∃ before w, Node.words [root] = before ++ [w] ∧ IsTokenText w.text ∧
      RowTo w.text (before.map (·.text)) text ∧
      ((Node.words [root]).IsChain (fun a b => ¬ a.Opens b) →
        Unopened (before.map (·.text)) text) := by
  have hin := Expr.inner_rule_iff.2 hr
  obtain ⟨hpasses, hchain⟩ := (matches_iff.1 h).passes_words hin (fun _ _ => rfl) htrim.first
  obtain ⟨w, hw, hend⟩ := htrim.last
  obtain ⟨before, hwords⟩ := List.getLast?_eq_some_iff.1 hw
  have hopen := hpasses.unopened rfl
  rw [hwords] at hpasses hchain
  have ht := hpasses.token_ne w (by simp)
  obtain ⟨mid, n, ⟨s, hs, ho⟩, hrow, hn, hstart, htext⟩ := hpasses.row_before hchain
  have hrest : mid.rest = w.text := by
    have hcount : byteCount text = byteCount s + byteCount mid.rest := by
      rw [← byteCount_append]
      exact congrArg byteCount hs
    have htake : byteCount mid.rest = byteCount w.text + byteCount (mid.rest.drop n) := by
      rw [htext, ← byteCount_append, List.take_append_drop]
    have hzero : (Cursor.start text).offset = 0 := rfl
    have hdrop : mid.rest.drop n = [] := byteCount_eq_zero_iff.1 (by omega)
    rw [htext, List.take_of_length_le (List.drop_eq_nil_iff.1 hdrop)]
  rw [hrest] at hrow hn htext
  have hle := Pattern.width?_le_length hn
  have hlength := congrArg List.length htext
  rw [List.length_take, Nat.min_eq_left hle] at hlength
  refine ⟨before, w, hwords, ⟨w.token, ht, by rw [hn, hlength]⟩, hrow, fun hmarks => ?_⟩
  have hall := hopen hmarks
  rw [hwords, List.map_append] at hall
  exact hall.of_append

/-- The words of a text that a rule matches stay when another text is put behind it that does
not go on with the last one and closes no comment that was left open in the text. -/
theorem Matches.words_stay {r : Rule} {text final : List Char} {root : Node}
    (h : Matches r text root) (hr : r ≠ .compilationUnit) (htrim : Trimmed text root)
    (hfinal : Outside isKnit final)
    (hmark : (Node.words [root]).IsChain (fun a b => ¬ a.Opens b) ∨ ClosesNoMore [] final) :
    ∃ front last, Node.wordTexts [root] = front ++ [last] ∧ IsTokenText last ∧
      RowTo last front text ∧ RowTo (last ++ final) front (text ++ final) := by
  obtain ⟨before, w, hwords, hlast, hrow, hopen⟩ := h.last_word hr htrim
  have hglue : ∀ s, Outside isGlue (w.text ++ s) := by
    intro s
    obtain ⟨c, r, hcons, t, hc⟩ := hlast.head
    rw [hcons]
    exact outside_isGlue_of_mayBegin hc _
  have hrow' := hrow
  rw [← List.append_nil w.text] at hrow'
  obtain ⟨front, hfront, hchange⟩ := hrow'.change (by simpa using hlast.ne_nil) (hglue _) (hglue _)
    hfinal (hlast.gapWidth_append_of_knit hfinal) (hmark.imp_left hopen)
  rw [List.append_nil] at hfront
  refine ⟨before.map (·.text), w.text, ?_, hlast, hrow, ?_⟩
  · rw [Node.wordTexts, hwords, List.map_append, List.map_singleton]
  · rw [hfront, List.append_assoc]
    exact hchange

/-- A text is framed by one that does not go on with its last word and closes no comment
that was left open in the text. -/
theorem Matches.framed {r : Rule} {text final : List Char} {root : Node}
    (h : Matches r text root) (hr : r ≠ .compilationUnit) (htrim : Trimmed text root)
    (hfinal : Outside isSticky final) (hgap : gapWidth final = 0)
    (hmark : (Node.words [root]).IsChain (fun a b => ¬ a.Opens b) ∨ ClosesNoMore [] final) :
    ∃ front last, Node.wordTexts [root] = front ++ [last] ∧ Framed front last text final := by
  have hknit := outside_isKnit_of_sticky hfinal
  obtain ⟨front, last, hwords, hlast, hrow, hrow'⟩ := h.words_stay hr htrim hknit hmark
  have hstands : Stands last ([] ++ final) :=
    (hlast.stands (outside_nil isSolid)).change (outside_isJoint_of_knit hknit)
  exact ⟨front, last, hwords, hstands, hrow, hrow', htrim.first, hgap⟩

/-- A text is framed by a mark behind which no comment is closed. -/
theorem Matches.framed_mark {r : Rule} {text : List Char} {root : Node} (h : Matches r text root)
    (hr : r ≠ .compilationUnit) (htrim : Trimmed text root) (c : Char) (s : List Char)
    (hc : c ∈ [')', ';']) (hs : ¬ ['*', '/'] <:+: s) :
    ∃ front last, Node.wordTexts [root] = front ++ [last] ∧
      rowLevel 0 (front ++ [last]) = some 0 ∧ Framed front last text (c :: s) := by
  have hall : ∀ c ∈ [')', ';'], isSticky c = false ∧ isSolid c = true ∧
      c ∉ ['\\', '#', '/'] ∧ c ∉ ['*', '/'] := by decide
  obtain ⟨hsticky, hsolid, hgap, hmark⟩ := hall c hc
  obtain ⟨front, last, hwords, hframed⟩ := h.framed hr htrim (outside_cons.2 hsticky)
    (gapWidth_eq_zero_of_head hsolid hgap s) (.inr (closesNoMore_cons hmark hs))
  refine ⟨front, last, hwords, ?_, hframed⟩
  rw [← hwords]
  exact (matches_iff.1 h).rowLevel_eq rfl

/-! ## The text is read as before -/

section
variable {r : Rule} {text : List Char} {twins : Twins} {nodes : List Node} {stop other : Cursor}

theorem Aligned.beside_start {read : List (List Char)} (h : Aligned twins read (.start text) other)
    (hgap : gapWidth text = 0) (e : Expr Rule) :
    Beside twins read (.once e) (.start text) (skipGap other) := by
  have hbeside := h.beside e
  rwa [skipGap_start hgap] at hbeside

/-- What a rule reads of a text are the first words of it. -/
theorem Reads.behind_start {words : List (List Char)}
    (h : Reads (.once (.rule r)) (.start text) (some (nodes, stop))) (hr : r ≠ .compilationUnit)
    (hgap : gapWidth text = 0) (hrow : Row words text) :
    Behind ⟨words, [], []⟩ (.rule r) (Node.wordTexts nodes) stop stop := by
  have haligned : Aligned ⟨words, [], []⟩ [] (.start text) (.start text) := ⟨words, rfl, hrow, hrow⟩
  have hbeside := haligned.beside_start hgap (.rule r)
  rw [skipGap_start hgap] at hbeside
  exact h.behind (Expr.inner_rule_iff.2 hr) (fun _ _ => rfl) barren_nil hbeside

/-- A rule that reads all words of a text reads them where the same words stand in front of
another one. -/
theorem Reads.all_words (h : Reads (.once (.rule r)) (.start text) (some (nodes, stop)))
    (hend : (skipGap stop).rest = []) (hr : r ≠ .compilationUnit) (hgap : gapWidth text = 0)
    (hfinal : twins.final = []) (haligned : Aligned twins [] (.start text) other)
    (hastray : ∀ place, ¬ Astray twins [] (.once (.rule r)) place) :
    ∃ nodes' stop', Reads (.once (.rule r)) (skipGap other) (some (nodes', stop')) ∧
      Node.toRoses nodes' = Node.toRoses nodes ∧ twins.words = Node.wordTexts nodes' ∧
      (skipGap stop').rest = twins.final' := by
  have hbeside := haligned.beside_start hgap (.rule r)
  cases h.alike (Expr.inner_rule_iff.2 hr) (fun _ _ => rfl) hbeside with
  | astray hout => exact absurd hout (hastray _)
  | some hreads hroses hbehind =>
    obtain ⟨hwords, hstop⟩ := hbehind.words_eq hfinal hend
    exact ⟨_, _, hreads, hroses, hwords, hstop⟩

/-- A rule that fails on a text fails where the same words stand in front of another one. -/
theorem Reads.none_aligned (h : Reads (.once (.rule r)) (.start text) none)
    (hr : r ≠ .compilationUnit) (hgap : gapWidth text = 0)
    (haligned : Aligned twins [] (.start text) other)
    (hastray : ∀ place, ¬ Astray twins [] (.once (.rule r)) place) :
    Reads (.once (.rule r)) (skipGap other) none := by
  have hbeside := haligned.beside_start hgap (.rule r)
  cases h.alike (Expr.inner_rule_iff.2 hr) (fun _ _ => rfl) hbeside with
  | astray hout => exact absurd hout (hastray _)
  | none hreads => exact hreads

end

section
variable {front : List (List Char)} {last text final : List Char} {r : Rule} {root : Node}

/-- Readings that go side by side through a framed text and stop behind its last word. -/
theorem Framed.stop_eq (h : Framed front last text final) (hr : r ≠ .compilationUnit)
    {offset : Nat} {nodes : List Node} {stop : Cursor}
    (hreads : Reads (.once (.rule r)) (skipGap ⟨offset, text ++ final⟩) (some (nodes, stop)))
    (hwords : Node.wordTexts nodes = front ++ [last]) :
    stop = ⟨offset + byteCount text, final⟩ := by
  have hin := Expr.inner_rule_iff.2 hr
  obtain ⟨hpasses, -⟩ := hreads.passes_words hin (fun _ _ => rfl) (gapWidth_skipGap _)
  obtain ⟨before, rest, hnodes, rfl, hlast⟩ := List.map_eq_append_iff.1 hwords
  obtain ⟨w, hw, rfl⟩ := List.map_eq_singleton_iff.1 hlast
  subst hw
  rw [hnodes] at hpasses
  have hpasses' : Passes ⟨offset, text ++ final⟩ (before ++ [w]) stop := .skip hpasses
  have hrest := hpasses'.stop_of_row h.row' h.gap'
  obtain ⟨s, hs, ho⟩ := hpasses'.reaches
  rw [hrest] at hs
  obtain rfl := List.append_cancel_right (hs : text ++ final = s ++ final)
  obtain ⟨o, rest⟩ := stop
  obtain rfl : rest = final := hrest
  obtain rfl : o = offset + byteCount text := ho
  rfl

/-- A rule that matches all of the text reads it in front of the other text too. -/
theorem Framed.reads (h : Framed front last text final) (hr : r ≠ .compilationUnit)
    (hmatches : Matches r text root) (offset : Nat)
    (hastray : ∀ other, ¬ Astray ⟨front ++ [last], [], final⟩ [] (.once (.rule r)) other) :
    ∃ root', Reads (.once (.rule r)) (skipGap ⟨offset, text ++ final⟩)
        (some ([root'], ⟨offset + byteCount text, final⟩)) ∧ root'.toRose = root.toRose := by
  obtain ⟨nodes, stop, hreads, hroses, hwords, -⟩ := (matches_iff.1 hmatches).all_words rfl hr
    h.gap rfl (h.aligned offset) hastray
  obtain rfl := h.stop_eq hr hreads hwords.symm
  cases hreads with
  | rule hbody => exact ⟨_, .rule hbody, by simpa [Node.toRoses] using hroses⟩

/-- A rule that leaves no word of the text matches all of it. -/
theorem Framed.matches_of_rest (h : Framed front last text final) (hr : r ≠ .compilationUnit)
    {nodes : List Node} {stop : Cursor}
    (hreads : Reads (.once (.rule r)) (.start text) (some (nodes, stop)))
    (hend : (skipGap stop).rest = []) : ∃ root, Matches r text root := by
  have hwords := ((hreads.behind_start hr h.gap h.alone).words_eq rfl hend).1.symm
  have hreads' : Reads (.once (.rule r)) (skipGap ⟨0, text ++ []⟩) (some (nodes, stop)) := by
    rw [List.append_nil]
    rw [← skipGap_start h.gap] at hreads
    exact hreads
  obtain rfl := h.bare.stop_eq hr hreads' hwords
  cases hreads with
  | rule hbody => exact ⟨_, Reads.matches_of_end (.rule hbody) rfl⟩

/-- A rule that fails on the text alone fails in front of the other text too. -/
theorem Framed.reads_none (h : Framed front last text final) (hr : r ≠ .compilationUnit)
    (hnone : Reads (.once (.rule r)) (.start text) none) (offset : Nat)
    (hastray : ∀ other, ¬ Astray ⟨front ++ [last], [], final⟩ [] (.once (.rule r)) other) :
    Reads (.once (.rule r)) (skipGap ⟨offset, text ++ final⟩) none :=
  hnone.none_aligned hr h.gap (h.aligned offset) hastray

/-- The rule does not ask for the mark behind the words, and where it leaves some of them it
is not the mark that follows. -/
structure ShutBy (mark : Punctuator) (words : List (List Char)) (final : List Char) (r : Rule) :
    Prop where
  clash : ∀ t ∈ Token.snagging, t.clash (.punctuator mark) = false
  not_astray : ∀ here, ¬ Astray ⟨words, [], final⟩ [] (.once (.rule r)) here
  next : ∀ {here nodes stop u more}, Reads (.once (.rule r)) here (some (nodes, stop)) →
    words = Node.wordTexts nodes ++ u :: more → IsTokenText u →
    (Token.punctuator mark).width? u = none

theorem shutBy_rightParen {words : List (List Char)} (hlevel : rowLevel 0 words = some 0)
    (s : List Char) (r : Rule) : ShutBy .rightParen words (')' :: s) r where
  clash := by decide
  not_astray _ := not_astray_of_balanced hlevel
  next hreads hwords hu := by
    rw [hwords] at hlevel
    exact width?_rightParen_eq_none hlevel (hreads.rowLevel_eq (n := 0) rfl) hu

/-- A rule that leaves some of the text is not followed by the mark. -/
theorem Framed.not_followed {mark : Punctuator} {nodes : List Node} {stop : Cursor}
    (h : Framed front last text final) (hr : r ≠ .compilationUnit)
    (hshut : ShutBy mark (front ++ [last]) final r)
    (hreads : Reads (.once (.rule r)) (.start text) (some (nodes, stop)))
    (hno : ∀ root, ¬ Matches r text root) (offset : Nat) :
    ∃ nodes mid, Reads (.once (.rule r)) (skipGap ⟨offset, text ++ final⟩) (some (nodes, mid)) ∧
      (Token.punctuator mark).width? (skipGap mid).rest = none := by
  have hin := Expr.inner_rule_iff.2 hr
  have hbeside := (h.aligned offset).beside_start h.gap (.rule r)
  cases hreads.alike hin (fun _ _ => rfl) hbeside with
  | astray hout => exact absurd hout (hshut.not_astray _)
  | @some _ _ nodes' stop' hreads' _ hbehind =>
    refine ⟨nodes', stop', hreads', ?_⟩
    cases hbehind with
    | stuck _ _ hstuck' _ =>
      rw [hstuck'.skipGap_eq]
      exact hstuck'.width?_eq_none (hshut.clash _ hstuck'.snagging)
    | aligned haligned =>
      obtain ⟨left, hleft, hrow, hrow'⟩ := haligned
      rw [List.nil_append] at hleft
      cases hrow' with
      | done =>
        -- Alone, the rule came to the end of the text.
        cases hrow with
        | done hend =>
          obtain ⟨root, hmatches⟩ := h.matches_of_rest hr hreads (by rw [skipGap_rest, hend])
          exact absurd hmatches (hno root)
      | @word _ u v words hs hu _ =>
        rw [skipGap_rest, hs, hu.settled (.punctuator mark) nofun]
        exact hshut.next hreads' hleft hu.isTokenText

/-- A rule that does not match all of the text is not followed by the parenthesis. -/
theorem Framed.no_paren {s : List Char} (h : Framed front last text (')' :: s))
    (hr : r ≠ .compilationUnit) (hlevel : rowLevel 0 (front ++ [last]) = some 0)
    (hno : ∀ root, ¬ Matches r text root) (offset : Nat) :
    Reads (.once (.rule r)) (skipGap ⟨offset, text ++ ')' :: s⟩) none ∨
      ∃ nodes mid, Reads (.once (.rule r)) (skipGap ⟨offset, text ++ ')' :: s⟩)
          (some (nodes, mid)) ∧
        (Token.punctuator .rightParen).width? (skipGap mid).rest = none := by
  have hshut := shutBy_rightParen hlevel s r
  obtain ⟨result, hreads⟩ := exists_reads r (.start text)
  cases result with
  | none => exact .inl (h.reads_none hr hreads offset hshut.not_astray)
  | some result => exact .inr (h.not_followed hr hshut hreads hno offset)

end
end CTree.Parse
