import CTree.Proofs.TokenTrials
import CTree.Proofs.WordRow

/-!
# Two texts with the same words

What is read from a text is read from every text with the same words too, and
with the same labels. The two readings go side by side. Most of the time they stand in
front of the same words; in between they may stand at snags of the same token, where
both go on in the same way: nothing is read there. If the texts have the same words only
at the beginning, the readings part no sooner than behind these words, where one of them
reads a token.
-/
namespace CTree.Parse
open CTree.Grammar CTree.Lexical CTree.Lexical.Pattern CTree.Text

/-! ## At a snag -/

/-- At a snag that the token has left. -/
def Stuck (t : Token) (here : Cursor) : Prop :=
  ∃ c s, here.rest = c :: s ∧ t.snags c = true

section Stuck
variable {t : Token} {here other : Cursor}

theorem Stuck.gapWidth_eq (h : Stuck t here) : gapWidth here.rest = 0 := by
  obtain ⟨c, s, hs, hc⟩ := h
  rw [hs]
  exact gapWidth_of_snag hc s

theorem Stuck.skipGap_eq (h : Stuck t here) : skipGap here = here :=
  skipGap_of_gapWidth h.gapWidth_eq

theorem Stuck.snagging (h : Stuck t here) : t ∈ Token.snagging := by
  obtain ⟨c, s, -, hc⟩ := h
  exact Token.mem_snagging_of_snags hc

theorem Stuck.width?_eq_none (h : Stuck t here) {u : Token} (hclash : t.clash u = false) :
    u.width? here.rest = none := by
  obtain ⟨c, s, hs, hc⟩ := h
  rw [hs]
  exact width?_of_snag hc hclash s

/-- The result of reading nothing at one place, when the same happens at another. -/
inductive Idle (goal : Goal) (here other : Cursor) : Option (List Node × Cursor) → Prop
  | none : Reads goal other none → Idle goal here other none
  | some : Reads goal other (some ([], other)) → Idle goal here other (some ([], here))

/-- What does not meet the token reads nothing at a snag, neither here nor there. -/
theorem Reads.stuck {goal : Goal} {result : Option (List Node × Cursor)}
    (h : Reads goal here result) (hhere : Stuck t here) (hother : Stuck t other)
    (hmeets : goal.expr.meets t = false) : Idle goal here other result := by
  have hgap := hother.skipGap_eq
  induction h with
  | nothing => exact .some .nothing
  | token hn =>
    rw [hhere.width?_eq_none hmeets] at hn
    cases hn
  | noToken hn => exact .none (.noToken (hother.width?_eq_none hmeets))
  | @rule r here nodes stop h ih =>
    have hbody := (Rule.meets_body hhere.snagging r).trans hmeets
    cases ih hhere hbody
    exact absurd rfl h.ne_nil_of_rule
  | @noRule r here h ih =>
    have hbody := (Rule.meets_body hhere.snagging r).trans hmeets
    cases ih hhere hbody with
    | none hreads => exact .none (.noRule hreads)
  | seq h h' ih ih' =>
    obtain ⟨hfirst, hsecond⟩ := Bool.or_eq_false_iff.1 hmeets
    cases ih hhere hfirst with
    | some hreads =>
      rw [h.nullable_of_nil, Bool.true_and] at hsecond
      rw [hhere.skipGap_eq] at ih'
      cases ih' hhere hsecond with
      | some hreads' => exact .some (.seq hreads (by rwa [hgap]))
  | noFirst h ih =>
    obtain ⟨hfirst, -⟩ := Bool.or_eq_false_iff.1 hmeets
    cases ih hhere hfirst with
    | none hreads => exact .none (.noFirst hreads)
  | noSecond h h' ih ih' =>
    obtain ⟨hfirst, hsecond⟩ := Bool.or_eq_false_iff.1 hmeets
    cases ih hhere hfirst with
    | some hreads =>
      rw [h.nullable_of_nil, Bool.true_and] at hsecond
      rw [hhere.skipGap_eq] at ih'
      cases ih' hhere hsecond with
      | none hreads' => exact .none (.noSecond hreads (by rwa [hgap]))
  | first h ih =>
    obtain ⟨hfirst, -⟩ := Bool.or_eq_false_iff.1 hmeets
    cases ih hhere hfirst with
    | some hreads => exact .some (.first hreads)
  | second h h' ih ih' =>
    obtain ⟨hfirst, hsecond⟩ := Bool.or_eq_false_iff.1 hmeets
    cases ih hhere hfirst with
    | none hreads =>
      cases ih' hhere hsecond with
      | none hreads' => exact .none (.second hreads hreads')
      | some hreads' => exact .some (.second hreads hreads')
  | opt h ih =>
    cases ih hhere hmeets with
    | some hreads => exact .some (.opt hreads)
  | noOpt h ih =>
    cases ih hhere hmeets with
    | none hreads => exact .some (.noOpt hreads)
  | many h h' ih ih' =>
    cases ih hhere hmeets with
    | some hreads =>
      cases ih' hhere hmeets with
      | some hreads' => exact .some (.many hreads hreads')
  | noMany h ih =>
    cases ih hhere hmeets with
    | none hreads => exact .some (.noMany hreads)
  | ahead h ih =>
    cases ih hhere hmeets with
    | some hreads => exact .some (.ahead hreads)
  | noAhead h ih =>
    cases ih hhere hmeets with
    | none hreads => exact .none (.noAhead hreads)
  | again h h' ih ih' =>
    rw [hhere.skipGap_eq] at ih
    cases ih hhere hmeets with
    | some hreads =>
      cases ih' hhere hmeets with
      | some hreads' => exact .some (.again (by rwa [hgap]) hreads')
  | enough h ih =>
    rw [hhere.skipGap_eq] at ih
    cases ih hhere hmeets with
    | none hreads => exact .some (.enough (by rwa [hgap]))

end Stuck

/-! ## In front of the same words -/

/-- Two texts that begin with the same words, and what is left of each behind them. -/
structure Twins where
  words : List (List Char)
  final : List Char
  final' : List Char

section Twins
variable (twins : Twins)

/-- In front of the same words. -/
def Aligned (read : List (List Char)) (here other : Cursor) : Prop :=
  ∃ left, twins.words = read ++ left ∧ RowTo twins.final left here.rest ∧
    RowTo twins.final' left other.rest

/-- Where two readings of the expression may have come to. -/
inductive Behind (e : Expr Rule) (read : List (List Char)) (here other : Cursor) : Prop
  | aligned : Aligned twins read here other → Behind e read here other
  | stuck {t} : e.ends t = true → Stuck t here → Stuck t other →
      twins.final' <:+ other.rest → Behind e read here other

/-- Where two readings of the goal may begin. -/
def Beside (read : List (List Char)) : Goal → Cursor → Cursor → Prop
  | .once _, here, other =>
    Aligned twins read here other ∧ gapWidth here.rest = 0 ∧ gapWidth other.rest = 0
  | .again e, here, other => Behind twins e read here other

/-- The texts of the words of some nodes. -/
def Node.wordTexts (nodes : List Node) : List (List Char) := (words nodes).map (·.text)

theorem Node.wordTexts_nil : wordTexts [] = [] := rfl

theorem Node.wordTexts_append (ns ms : List Node) :
    wordTexts (ns ++ ms) = wordTexts ns ++ wordTexts ms := by
  rw [wordTexts, words_append, List.map_append, wordTexts, wordTexts]

theorem Node.wordTexts_leaf {t : Token} (ht : t ≠ .endOfInput) (start : Nat)
    (text : List Char) : wordTexts [leaf t start text] = [text] := by
  rw [wordTexts, words_leaf ht, List.map_singleton]

theorem Node.wordTexts_branch {r : Rule} {start stop : Nat} {nodes : List Node}
    (h : nodes ≠ []) : wordTexts [branch r start stop nodes] = wordTexts nodes := by
  rw [wordTexts, words_branch h, wordTexts]

/-- The other reading goes astray if it tries a token behind the last word and what is
left there has a say in it. -/
def Astray (read : List (List Char)) (goal : Goal) (other : Cursor) : Prop :=
  ∃ t nodes there, t ≠ .endOfInput ∧ Tries goal other t nodes there ∧
    there.rest = twins.final' ∧ twins.words = read ++ Node.wordTexts nodes ∧
    ¬ (t.width? twins.final = none ∧ t.width? twins.final' = none)

/-- The result of reading a goal, when reading it at another place gives the same labels
and comes to where a reading of the expression may have come to, or goes astray. -/
inductive Alike (goal : Goal) (e : Expr Rule) (read : List (List Char)) (other : Cursor) :
    Option (List Node × Cursor) → Prop
  | none : Reads goal other none → Alike goal e read other none
  | some {nodes stop nodes' stop'} : Reads goal other (some (nodes', stop')) →
      Node.toRoses nodes' = Node.toRoses nodes →
      Behind twins e (read ++ Node.wordTexts nodes') stop stop' →
      Alike goal e read other (some (nodes, stop))
  | astray {result} : Astray twins read goal other → Alike goal e read other result

end Twins

section Alike
variable {twins : Twins} {e f : Expr Rule} {goal : Goal} {read : List (List Char)}
  {here other : Cursor} {result : Option (List Node × Cursor)}

theorem Aligned.skip (h : Aligned twins read here other) :
    Aligned twins read (skipGap here) (skipGap other) := by
  obtain ⟨left, hleft, hhere, hother⟩ := h
  refine ⟨left, hleft, ?_, ?_⟩
  · rw [skipGap_rest]
    exact rowTo_drop_gapWidth_iff.2 hhere
  · rw [skipGap_rest]
    exact rowTo_drop_gapWidth_iff.2 hother

theorem Behind.mono (h : Behind twins e read here other)
    (hends : ∀ t ∈ Token.snagging, e.ends t = true → f.ends t = true) :
    Behind twins f read here other := by
  cases h with
  | aligned h => exact .aligned h
  | stuck ht hhere hother hfinal => exact .stuck (hends _ hhere.snagging ht) hhere hother hfinal

/-- Behind what ends with no snag the same words are left. -/
theorem Behind.aligned_of_ends (h : Behind twins e read here other)
    (hends : ∀ t ∈ Token.snagging, e.ends t = false) : Aligned twins read here other := by
  cases h with
  | aligned h => exact h
  | stuck ht hstuck _ _ =>
    rw [hends _ hstuck.snagging] at ht
    cases ht

/-- A reading that comes to the end of its text has read all of the words, and so has the
other one. -/
theorem Behind.words_eq (h : Behind twins e read here other) (hfinal : twins.final = [])
    (hend : (skipGap here).rest = []) :
    twins.words = read ∧ (skipGap other).rest = twins.final' := by
  cases h with
  | aligned h =>
    obtain ⟨left, hleft, hrow, hrow'⟩ := h
    rw [skipGap_rest, ← hfinal] at hend
    obtain rfl := hrow.words_eq_nil hend
    cases hrow' with
    | done hend' => exact ⟨by rw [hleft, List.append_nil], by rw [skipGap_rest, hend']⟩
  | stuck _ hstuck _ _ =>
    rw [hstuck.skipGap_eq] at hend
    obtain ⟨c, s, hs, -⟩ := hstuck
    rw [hend] at hs
    cases hs

theorem Aligned.beside (h : Aligned twins read here other) (e : Expr Rule) :
    Beside twins read (.once e) (skipGap here) (skipGap other) :=
  ⟨h.skip, gapWidth_skipGap here, gapWidth_skipGap other⟩

/-- Where nothing was read, nothing is behind. -/
theorem Beside.behind (h : Beside twins read (.once e) here other) (f : Expr Rule) :
    Behind twins f (read ++ Node.wordTexts []) here other := by
  rw [Node.wordTexts_nil, List.append_nil]
  exact .aligned h.1

theorem Alike.mono (h : Alike twins goal e read other result)
    (hends : ∀ t ∈ Token.snagging, e.ends t = true → f.ends t = true) :
    Alike twins goal f read other result := by
  cases h with
  | none h => exact .none h
  | some h hroses hbehind => exact .some h hroses (hbehind.mono hends)
  | astray h => exact .astray h

theorem Node.toRoses_append (ns ms : List Node) :
    toRoses (ns ++ ms) = toRoses ns ++ toRoses ms := by
  induction ns with
  | nil => rfl
  | cons n ns ih => rw [List.cons_append, toRoses, ih, toRoses, List.cons_append]

theorem Node.toRoses_leaf (t : Token) (start start' : Nat) (text : List Char) :
    toRoses [leaf t start text] = toRoses [leaf t start' text] := by
  cases t <;> cases text <;> rfl

theorem Node.toRoses_branch (r : Rule) (start stop : Nat) (nodes : List Node) :
    toRoses [branch r start stop nodes] = [.node r.name (toRoses nodes)] := by
  simp [toRoses, toRose]

/-- In front of the same words a token is read from the word itself, if at all. Behind the
last word it is read from what is left. -/
theorem alike_token {t : Token} (ht : t ≠ .endOfInput)
    (h : Beside twins read (.once (.token t)) here other) :
    t.width? here.rest = none ∧ t.width? other.rest = none ∨
    (∃ n, t.width? here.rest = some n ∧ t.width? other.rest = some n ∧
      here.rest.take n = other.rest.take n ∧
      Behind twins (.token t) (read ++ [other.rest.take n]) (here.advance n)
        (other.advance n)) ∨
    (other.rest = twins.final' ∧ twins.words = read ∧
      ¬ (t.width? twins.final = none ∧ t.width? twins.final' = none)) := by
  obtain ⟨⟨left, hleft, hrow, hrow'⟩, hgap, hgap'⟩ := h
  cases hrow with
  | done hend =>
    rw [hgap, List.drop_zero] at hend
    cases hrow' with
    | done hend' =>
      rw [hgap', List.drop_zero] at hend'
      rw [hend, hend']
      by_cases hnone : t.width? twins.final = none ∧ t.width? twins.final' = none
      · exact .inl hnone
      · exact .inr (.inr ⟨rfl, by rw [hleft, List.append_nil], hnone⟩)
  | @word _ u v words hs hu hrest =>
    rw [hgap, List.drop_zero] at hs
    cases hrow' with
    | @word _ _ v' _ hs' hu' hrest' =>
      rw [hgap', List.drop_zero] at hs'
      have hwidth := hu.settled t ht
      have hwidth' := hu'.settled t ht
      rw [hs, hs', hwidth, hwidth']
      cases hn : t.width? u with
      | none => exact .inl ⟨rfl, rfl⟩
      | some n =>
        have hle := Pattern.width?_le_length hn
        refine .inr (.inl ⟨n, rfl, rfl, ?_, ?_⟩)
        · rw [List.take_append_of_le_length hle, List.take_append_of_le_length hle]
        · by_cases hwhole : n = u.length
          · subst hwhole
            refine .aligned ⟨words, ?_, ?_, ?_⟩
            · rw [List.take_left, hleft, List.append_assoc, List.singleton_append]
            · rwa [Cursor.advance_rest, hs, List.drop_left]
            · rwa [Cursor.advance_rest, hs', List.drop_left]
          · obtain ⟨c, r, hr, hsnag⟩ := hu.isTokenText.snags ht hn hwhole
            have hdrop : ∀ w, (u ++ w).drop n = c :: (r ++ w) := by
              intro w
              rw [List.drop_append_of_le_length hle, hr, List.cons_append]
            refine .stuck (t := t) (by simp [Expr.ends, Expr.endsIn, Expr.endsBy])
              ⟨c, r ++ v, ?_, hsnag⟩ ⟨c, r ++ v', ?_, hsnag⟩ ?_
            · rw [Cursor.advance_rest, hs, hdrop]
            · rw [Cursor.advance_rest, hs', hdrop]
            · rw [Cursor.advance_rest, hs', hdrop]
              exact hrest'.suffix.trans (List.suffix_append (c :: r) v')

theorem Astray.token {t : Token} (ht : t ≠ .endOfInput)
    (h : other.rest = twins.final' ∧ twins.words = read ∧
      ¬ (t.width? twins.final = none ∧ t.width? twins.final' = none)) :
    Astray twins read (.once (.token t)) other := by
  obtain ⟨hend, hwords, hsay⟩ := h
  refine ⟨t, [], other, ht, .token, hend, ?_, hsay⟩
  rw [hwords, Node.wordTexts_nil, List.append_nil]

/-- A part goes astray, and with it the whole. -/
theorem Astray.lift {whole : Goal} {place : Cursor} (h : Astray twins read goal other)
    (hlift : ∀ {t nodes there}, Tries goal other t nodes there →
      Tries whole place t nodes there) : Astray twins read whole place := by
  obtain ⟨t, nodes, there, ht, htries, hend, hwords, hsay⟩ := h
  exact ⟨t, nodes, there, ht, hlift htries, hend, hwords, hsay⟩

/-- A part behind some nodes goes astray, and with it the whole. -/
theorem Astray.behind {whole : Goal} {place : Cursor} {nodes : List Node}
    (h : Astray twins (read ++ Node.wordTexts nodes) goal other)
    (hlift : ∀ {t more there}, Tries goal other t more there →
      Tries whole place t (nodes ++ more) there) : Astray twins read whole place := by
  obtain ⟨t, more, there, ht, htries, hend, hwords, hsay⟩ := h
  refine ⟨t, nodes ++ more, there, ht, hlift htries, hend, ?_, hsay⟩
  rw [hwords, Node.wordTexts_append, List.append_assoc]

/-- Where no token is read from what is left, no reading goes astray. -/
theorem not_astray (h : Barren twins.final) (h' : Barren twins.final') : ¬ Astray twins read goal other := by
  rintro ⟨t, nodes, there, ht, -, -, -, hsay⟩
  exact hsay ⟨h t ht, h' t ht⟩

/-- The next part is read alike, whether the first one has left a snag or not. -/
theorem Behind.alike {mid mid' : Cursor} (h : Behind twins e read mid mid')
    (hno : ∀ t ∈ Token.snagging, e.ends t = true → f.meets t = false)
    (hreads : Reads (.once f) (skipGap mid) result)
    (ih : Beside twins read (.once f) (skipGap mid) (skipGap mid') →
      Alike twins (.once f) f read (skipGap mid') result) :
    Alike twins (.once f) (.seq e f) read (skipGap mid') result := by
  cases h with
  | aligned h =>
    refine (ih (h.beside f)).mono fun t _ hends => ?_
    exact Bool.or_eq_true_iff.2 (.inl hends)
  | stuck hends hhere hother hfinal =>
    rw [hhere.skipGap_eq] at hreads
    rw [hother.skipGap_eq]
    cases hreads.stuck hhere hother (hno _ hhere.snagging hends) with
    | none h => exact .none h
    | some h =>
      refine .some h rfl (.stuck ?_ hhere hother hfinal)
      exact Bool.or_eq_true_iff.2 (.inr (Bool.and_eq_true_iff.2 ⟨h.nullable_of_nil, hends⟩))

/-- A reading that begins beside another one has a result like it. -/
theorem Reads.alike (h : Reads goal here result) (hin : goal.expr.inner = true)
    (hapart : goal.whole.Apart) (hbeside : Beside twins read goal here other) :
    Alike twins goal goal.expr read other result := by
  induction h generalizing other read with
  | nothing => exact .some .nothing rfl (hbeside.behind _)
  | @token t here n hn =>
    have ht := Expr.inner_token_iff.1 hin
    rcases alike_token ht hbeside with ⟨hnone, -⟩ | ⟨k, hk, hother, htext, hbehind⟩ | hastray
    · rw [hn] at hnone
      cases hnone
    · obtain rfl := Option.some.inj (hn.symm.trans hk)
      refine .some (.token hother) ?_ ?_
      · rw [htext]
        exact Node.toRoses_leaf t _ _ _
      · rwa [Node.wordTexts_leaf ht]
    · exact .astray (.token ht hastray)
  | @noToken t here hn =>
    have ht := Expr.inner_token_iff.1 hin
    rcases alike_token ht hbeside with ⟨-, hother⟩ | ⟨k, hk, -⟩ | hastray
    · exact .none (.noToken hother)
    · rw [hn] at hk
      cases hk
    · exact .astray (.token ht hastray)
  | @rule r here nodes stop h ih =>
    have hr := Expr.inner_rule_iff.1 hin
    cases ih (Rule.inner_body hr) (Rule.apart_body r) hbeside with
    | some hreads hroses hbehind =>
      refine .some (.rule hreads) ?_ ?_
      · rw [Node.toRoses_branch, Node.toRoses_branch, hroses]
      · rw [Node.wordTexts_branch hreads.ne_nil_of_rule]
        exact hbehind.mono fun t ht hends => (Rule.ends_body ht r).symm.trans hends
    | astray h => exact .astray (h.lift fun htries => .rule htries)
  | @noRule r here h ih =>
    have hr := Expr.inner_rule_iff.1 hin
    cases ih (Rule.inner_body hr) (Rule.apart_body r) hbeside with
    | none hreads => exact .none (.noRule hreads)
    | astray h => exact .astray (h.lift fun htries => .rule htries)
  | seq h h' ih ih' =>
    have hboth := Bool.and_eq_true_iff.1 hin
    cases ih hboth.1 hapart.seq.1 hbeside with
    | some hreads hroses hbehind =>
      have hsecond := hbehind.alike (fun _ ht => hapart.meets_eq_false ht) h'
        (ih' hboth.2 hapart.seq.2)
      cases hsecond with
      | some hreads' hroses' hbehind' =>
        refine .some (.seq hreads hreads') ?_ ?_
        · rw [Node.toRoses_append, Node.toRoses_append, hroses, hroses']
        · rwa [Node.wordTexts_append, ← List.append_assoc]
      | astray h => exact .astray (h.behind fun htries => .seqSecond hreads htries)
    | astray h => exact .astray (h.lift fun htries => .seqFirst htries)
  | noFirst h ih =>
    have hboth := Bool.and_eq_true_iff.1 hin
    cases ih hboth.1 hapart.seq.1 hbeside with
    | none hreads => exact .none (.noFirst hreads)
    | astray h => exact .astray (h.lift fun htries => .seqFirst htries)
  | noSecond h h' ih ih' =>
    have hboth := Bool.and_eq_true_iff.1 hin
    cases ih hboth.1 hapart.seq.1 hbeside with
    | some hreads hroses hbehind =>
      have hsecond := hbehind.alike (fun _ ht => hapart.meets_eq_false ht) h'
        (ih' hboth.2 hapart.seq.2)
      cases hsecond with
      | none hreads' => exact .none (.noSecond hreads hreads')
      | astray h => exact .astray (h.behind fun htries => .seqSecond hreads htries)
    | astray h => exact .astray (h.lift fun htries => .seqFirst htries)
  | first h ih =>
    have hboth := Bool.and_eq_true_iff.1 hin
    cases ih hboth.1 hapart.alt.1 hbeside with
    | some hreads hroses hbehind =>
      refine .some (.first hreads) hroses (hbehind.mono fun t _ hends => ?_)
      exact Bool.or_eq_true_iff.2 (.inl hends)
    | astray h => exact .astray (h.lift fun htries => .altFirst htries)
  | second h h' ih ih' =>
    have hboth := Bool.and_eq_true_iff.1 hin
    cases ih hboth.1 hapart.alt.1 hbeside with
    | none hreads =>
      cases ih' hboth.2 hapart.alt.2 hbeside with
      | none hreads' => exact .none (.second hreads hreads')
      | some hreads' hroses hbehind =>
        refine .some (.second hreads hreads') hroses (hbehind.mono fun t _ hends => ?_)
        exact Bool.or_eq_true_iff.2 (.inr hends)
      | astray h => exact .astray (h.lift fun htries => .altSecond hreads htries)
    | astray h => exact .astray (h.lift fun htries => .altFirst htries)
  | opt h ih =>
    cases ih hin hapart hbeside with
    | some hreads hroses hbehind => exact .some (.opt hreads) hroses (hbehind.mono fun _ _ => id)
    | astray h => exact .astray (h.lift fun htries => .opt htries)
  | noOpt h ih =>
    cases ih hin hapart hbeside with
    | none hreads => exact .some (.noOpt hreads) rfl (hbeside.behind _)
    | astray h => exact .astray (h.lift fun htries => .opt htries)
  | many h h' ih ih' =>
    cases ih hin hapart.many hbeside with
    | some hreads hroses hbehind =>
      cases ih' hin hapart hbehind with
      | some hreads' hroses' hbehind' =>
        refine .some (.many hreads hreads') ?_ ?_
        · rw [Node.toRoses_append, Node.toRoses_append, hroses, hroses']
        · rw [Node.wordTexts_append, ← List.append_assoc]
          exact hbehind'.mono fun _ _ => id
      | astray h => exact .astray (h.behind fun htries => .manyMore hreads htries)
    | astray h => exact .astray (h.lift fun htries => .manyFirst htries)
  | noMany h ih =>
    cases ih hin hapart.many hbeside with
    | none hreads => exact .some (.noMany hreads) rfl (hbeside.behind _)
    | astray h => exact .astray (h.lift fun htries => .manyFirst htries)
  | ahead h ih =>
    cases ih hin hapart hbeside with
    | some hreads _ _ => exact .some (.ahead hreads) rfl (hbeside.behind _)
    | astray h => exact .astray (h.lift fun htries => .ahead htries)
  | noAhead h ih =>
    cases ih hin hapart hbeside with
    | none hreads => exact .none (.noAhead hreads)
    | astray h => exact .astray (h.lift fun htries => .ahead htries)
  | @again e here nodes mid more stop h h' ih ih' =>
    have hturn := Behind.alike hbeside (fun _ ht => hapart.meets_again ht) h
      (ih hin hapart.many)
    cases hturn with
    | some hreads hroses hbehind =>
      have hmid := hbehind.mono (f := e) fun t _ hends =>
        (Bool.or_eq_true_iff.1 hends).elim id fun h => (Bool.and_eq_true_iff.1 h).2
      cases ih' hin hapart hmid with
      | some hreads' hroses' hbehind' =>
        refine .some (.again hreads hreads') ?_ ?_
        · rw [Node.toRoses_append, Node.toRoses_append, hroses, hroses']
        · rwa [Node.wordTexts_append, ← List.append_assoc]
      | astray h => exact .astray (h.behind fun htries => .againMore hreads htries)
    | astray h => exact .astray (h.lift fun htries => .againFirst htries)
  | enough h ih =>
    have hturn := Behind.alike hbeside (fun _ ht => hapart.meets_again ht) h
      (ih hin hapart.many)
    cases hturn with
    | none hreads =>
      refine .some (.enough hreads) rfl ?_
      rwa [Node.wordTexts_nil, List.append_nil]
    | astray h => exact .astray (h.lift fun htries => .againFirst htries)

end Alike

/-- A reading stops within the words if no token begins behind them. -/
theorem Reads.behind {goal : Goal} {here stop : Cursor} {nodes : List Node}
    {words before : List (List Char)} {final : List Char}
    (h : Reads goal here (some (nodes, stop))) (hin : goal.expr.inner = true)
    (hapart : goal.whole.Apart) (hbarren : Barren final)
    (hbeside : Beside ⟨words, final, final⟩ before goal here here) :
    Behind ⟨words, final, final⟩ goal.expr (before ++ Node.wordTexts nodes) stop stop := by
  cases h.alike hin hapart hbeside with
  | some hreads _ hbehind =>
    cases hreads.unique h
    exact hbehind
  | astray hastray => exact absurd hastray (not_astray hbarren hbarren)

end CTree.Parse
