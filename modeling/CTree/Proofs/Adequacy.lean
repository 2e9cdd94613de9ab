import CTree.Proofs.Derivation

/-!
# The readers and the derivations

What a reader answers is derivable, and at a sufficient depth a reader answers.
The depth is spent by rules that call each other before a token is read, at most
`Rule.all.length` of them at a place, so `depthFor` suffices for every text.
Parsing a source is therefore deriving it.
-/
namespace CTree.Parse
open CTree.Grammar CTree.Lexical CTree.Text

/-- The answer is derivable. A reader that is exhausted has given none. -/
def Outcome.Means (goal : Goal) (here : Cursor) : Outcome → Prop
  | .matched nodes stop _ => Reads goal here (some (nodes, stop))
  | .failed _ => Reads goal here none
  | .exhausted => True

/-! ## Soundness -/

section Soundness

variable {readRule : Rule → Reader}

lemma readToken_means (t : Token) (here : Cursor) (log : FailureLog) :
    (readToken t here log).Means (.once (.token t)) here := by
  cases h : t.width? here.rest with
  | none => simp only [readToken, h]; exact .noToken h
  | some n => simp only [readToken, h]; exact .token h

/-- The clock never runs out: each turn takes a character, and the last one fails. -/
lemma readMore_means {item : Reader} {e : Expr Rule} (hin : e.inner = true)
    (hnull : e.nullable = false) (hitem : ∀ here log, (item here log).Means (.once e) here)
    (clock : List Char) (read : List Node) (here : Cursor) (log : FailureLog)
    (hclock : here.rest.length < clock.length) :
    match readMore item clock read here log with
    | .matched nodes stop _ =>
      ∃ more, nodes = read.reverse ++ more ∧ Reads (.again e) here (some (more, stop))
    | .failed _ => False
    | .exhausted => True := by
  induction clock generalizing read here log with
  | nil => simp at hclock
  | cons c clock ih =>
    have hmeans := hitem (skipGap here) log
    cases hout : item (skipGap here) log with
    | matched nodes stop log' =>
      rw [hout] at hmeans
      have hshort := Reads.length_lt hmeans hin hnull
      have hgap := (reaches_skipGap here).length_le
      have hrest := ih (nodes.reverse ++ read) stop log'
        (by rw [List.length_cons] at hclock; omega)
      simp only [readMore, hout]
      cases hmore : readMore item clock (nodes.reverse ++ read) stop log' with
      | matched all last log'' =>
        rw [hmore] at hrest
        obtain ⟨more, rfl, hagain⟩ := hrest
        exact ⟨nodes ++ more, by simp, .again hmeans hagain⟩
      | failed log'' => rw [hmore] at hrest; exact hrest
      | exhausted => trivial
    | failed log' =>
      rw [hout] at hmeans
      simp only [readMore, hout]
      exact ⟨[], by simp, .enough hmeans⟩
    | exhausted => simp only [readMore, hout]

theorem readExpr_means (hrule : ∀ r here log, (readRule r here log).Means (.once (.rule r)) here)
    {e : Expr Rule} (hsteady : e.steady = true) (here : Cursor) (log : FailureLog) :
    (readExpr readRule e here log).Means (.once e) here := by
  induction e generalizing here log with
  | nothing => exact .nothing
  | token t => exact readToken_means t here log
  | rule r => exact hrule r here log
  | seq e f ihe ihf =>
    simp only [Expr.steady, Bool.and_eq_true] at hsteady
    have he := ihe hsteady.1.1 here log
    simp only [readExpr]
    cases hout : readExpr readRule e here log with
    | matched nodes mid log' =>
      rw [hout] at he
      have hf := ihf hsteady.1.2 (skipGap mid) log'
      simp only
      cases hout' : readExpr readRule f (skipGap mid) log' with
      | matched more stop log'' => rw [hout'] at hf; exact .seq he hf
      | failed log'' => rw [hout'] at hf; exact .noSecond he hf
      | exhausted => trivial
    | failed log' => rw [hout] at he; exact .noFirst he
    | exhausted => trivial
  | alt e f ihe ihf =>
    simp only [Expr.steady, Bool.and_eq_true] at hsteady
    have he := ihe hsteady.1 here log
    simp only [readExpr]
    cases hout : readExpr readRule e here log with
    | matched nodes stop log' => rw [hout] at he; exact .first he
    | failed log' =>
      rw [hout] at he
      have hf := ihf hsteady.2 here log'
      simp only
      cases hout' : readExpr readRule f here log' with
      | matched nodes stop log'' => rw [hout'] at hf; exact .second he hf
      | failed log'' => rw [hout'] at hf; exact .second he hf
      | exhausted => trivial
    | exhausted => trivial
  | opt e ih =>
    have he := ih hsteady here log
    simp only [readExpr]
    cases hout : readExpr readRule e here log with
    | matched nodes stop log' => rw [hout] at he; exact .opt he
    | failed log' => rw [hout] at he; exact .noOpt he
    | exhausted => trivial
  | many e ih =>
    simp only [Expr.steady, Bool.and_eq_true, Bool.not_eq_true'] at hsteady
    have he := ih hsteady.1.1 here log
    simp only [readExpr]
    cases hout : readExpr readRule e here log with
    | matched nodes mid log' =>
      rw [hout] at he
      have hmore := readMore_means hsteady.1.2 hsteady.2 (ih hsteady.1.1) here.rest
        nodes.reverse mid log' (Reads.length_lt he hsteady.1.2 hsteady.2)
      simp only
      cases hout' : readMore (readExpr readRule e) here.rest nodes.reverse mid log' with
      | matched all stop log'' =>
        rw [hout'] at hmore
        obtain ⟨more, rfl, hagain⟩ := hmore
        rw [List.reverse_reverse]
        exact .many he hagain
      | failed log'' => rw [hout'] at hmore; exact hmore.elim
      | exhausted => trivial
    | failed log' => rw [hout] at he; exact .noMany he
    | exhausted => trivial
  | ahead e ih =>
    have he := ih hsteady here log
    simp only [readExpr]
    cases hout : readExpr readRule e here log with
    | matched nodes stop log' => rw [hout] at he; exact .ahead he
    | failed log' => rw [hout] at he; exact .noAhead he
    | exhausted => trivial

end Soundness

/-- A reader's answer is derivable. -/
theorem readRule_means (depth : Nat) (r : Rule) (here : Cursor) (log : FailureLog) :
    (readRule depth r here log).Means (.once (.rule r)) here := by
  induction depth generalizing r here log with
  | zero => trivial
  | succ depth ih =>
    have hbody := readExpr_means ih (Rule.steady_body r) here log
    simp only [readRule]
    cases hout : readExpr (readRule depth) r.body here log with
    | matched nodes stop log' => rw [hout] at hbody; exact .rule hbody
    | failed log' => rw [hout] at hbody; exact .noRule hbody
    | exhausted => trivial

/-! ## Sufficient depth -/

/-- The depth that a rule needs for a text of the given length. -/
def needed (r : Rule) (length : Nat) : Nat := r.height + Rule.all.length * length

lemma needed_mono (r : Rule) {m n : Nat} (h : m ≤ n) : needed r m ≤ needed r n :=
  Nat.add_le_add_left (Nat.mul_le_mul_left _ h) _

/-- Behind a character any rule may be called. -/
lemma needed_le_of_lt (r : Rule) {m n : Nat} (h : m < n) :
    needed r m ≤ Rule.all.length * n := by
  have hheight := r.height_le
  calc needed r m ≤ Rule.all.length + Rule.all.length * m := Nat.add_le_add_right hheight _
    _ = Rule.all.length * (m + 1) := by rw [Nat.mul_add, Nat.mul_one, Nat.add_comm]
    _ ≤ Rule.all.length * n := Nat.mul_le_mul_left _ h

section Depth

variable {readRule : Rule → Reader} {depth : Nat}

lemma readMore_ne_exhausted {item : Reader} {n : Nat}
    (hitem : ∀ here log, here.rest.length < n → item here log ≠ .exhausted)
    (hforward : ∀ here log nodes stop log', item here log = .matched nodes stop log' →
      stop.rest.length ≤ here.rest.length)
    (clock : List Char) (read : List Node) (here : Cursor) (log : FailureLog)
    (hlen : here.rest.length < n) : readMore item clock read here log ≠ .exhausted := by
  induction clock generalizing read here log with
  | nil => simp [readMore]
  | cons c clock ih =>
    have hgap := (reaches_skipGap here).length_le
    have hne := hitem (skipGap here) log (by omega)
    cases hout : item (skipGap here) log with
    | matched nodes stop log' =>
      have hle := hforward _ _ _ _ _ hout
      simp only [readMore, hout]
      exact ih _ stop log' (by omega)
    | failed log' => simp [readMore, hout]
    | exhausted => exact absurd hout hne

/-- An expression is read at a depth that suffices for the rules it calls first,
and for all rules one character further on. -/
theorem readExpr_ne_exhausted
    (hrule : ∀ r here log, (readRule r here log).Means (.once (.rule r)) here)
    (hdepth : ∀ r here log, needed r here.rest.length ≤ depth →
      readRule r here log ≠ .exhausted)
    {e : Expr Rule} (hsteady : e.steady = true) (here : Cursor) (log : FailureLog)
    (hleft : ∀ r ∈ e.leftRules, needed r here.rest.length ≤ depth)
    (hrest : Rule.all.length * here.rest.length ≤ depth) :
    readExpr readRule e here log ≠ .exhausted := by
  induction e generalizing here log with
  | nothing => simp [readExpr]
  | token t => cases h : t.width? here.rest <;> simp [readExpr, readToken, h]
  | rule r => exact hdepth r here log (hleft r (by simp [Expr.leftRules]))
  | seq e f ihe ihf =>
    simp only [Expr.steady, Bool.and_eq_true, Bool.or_eq_true] at hsteady
    simp only [Expr.leftRules, List.mem_append] at hleft
    have hne := ihe hsteady.1.1 here log (fun r hr => hleft r (.inl hr)) hrest
    have hmeans := readExpr_means hrule hsteady.1.1 here log
    cases hout : readExpr readRule e here log with
    | matched nodes mid log' =>
      rw [hout] at hmeans
      have hforward := Reads.reaches hmeans
      have hle := (hforward.trans (reaches_skipGap mid)).length_le
      have hfne : readExpr readRule f (skipGap mid) log' ≠ .exhausted := by
        refine ihf hsteady.1.2 _ _ (fun r hr => ?_)
          ((Nat.mul_le_mul_left _ hle).trans hrest)
        cases hnull : e.nullable with
        | true => exact (needed_mono r hle).trans (hleft r (.inr (by simpa [hnull] using hr)))
        | false =>
          have hin : e.inner = true := by simpa [hnull] using hsteady.2
          have hlt := Reads.length_lt hmeans hin hnull
          have hgap := (reaches_skipGap mid).length_le
          exact (needed_le_of_lt r (by omega)).trans hrest
      simp only [readExpr, hout]
      cases hout' : readExpr readRule f (skipGap mid) log' with
      | matched more stop log'' => simp
      | failed log'' => simp
      | exhausted => exact absurd hout' hfne
    | failed log' => simp [readExpr, hout]
    | exhausted => exact absurd hout hne
  | alt e f ihe ihf =>
    simp only [Expr.steady, Bool.and_eq_true] at hsteady
    simp only [Expr.leftRules, List.mem_append] at hleft
    have hne := ihe hsteady.1 here log (fun r hr => hleft r (.inl hr)) hrest
    simp only [readExpr]
    cases hout : readExpr readRule e here log with
    | matched nodes stop log' => simp
    | failed log' => exact ihf hsteady.2 here log' (fun r hr => hleft r (.inr hr)) hrest
    | exhausted => exact absurd hout hne
  | opt e ih =>
    have hne := ih hsteady here log hleft hrest
    simp only [readExpr]
    cases hout : readExpr readRule e here log with
    | matched nodes stop log' => simp
    | failed log' => simp
    | exhausted => exact absurd hout hne
  | many e ih =>
    simp only [Expr.steady, Bool.and_eq_true, Bool.not_eq_true'] at hsteady
    have hne := ih hsteady.1.1 here log hleft hrest
    have hmeans := readExpr_means hrule hsteady.1.1
    simp only [readExpr]
    cases hout : readExpr readRule e here log with
    | matched nodes mid log' =>
      have hfirst := hmeans here log
      rw [hout] at hfirst
      refine readMore_ne_exhausted (n := here.rest.length) ?_ ?_ _ _ _ _
        (Reads.length_lt hfirst hsteady.1.2 hsteady.2)
      · intro next log₁ hlt
        refine ih hsteady.1.1 next log₁ (fun r _ => (needed_le_of_lt r hlt).trans hrest) ?_
        exact (Nat.mul_le_mul_left _ hlt.le).trans hrest
      · intro next log₁ nodes' stop log₂ hitem
        have hnext := hmeans next log₁
        rw [hitem] at hnext
        exact (Reads.reaches hnext).length_le
    | failed log' => simp
    | exhausted => exact absurd hout hne
  | ahead e ih =>
    have hne := ih hsteady here log hleft hrest
    simp only [readExpr]
    cases hout : readExpr readRule e here log with
    | matched nodes stop log' => simp
    | failed log' => simp
    | exhausted => exact absurd hout hne

end Depth

theorem readRule_ne_exhausted {depth : Nat} {r : Rule} {here : Cursor} (log : FailureLog)
    (h : needed r here.rest.length ≤ depth) : readRule depth r here log ≠ .exhausted := by
  induction depth generalizing r here log with
  | zero =>
    have hpos := r.height_pos
    simp only [needed] at h
    omega
  | succ depth ih =>
    have hbody : readExpr (readRule depth) r.body here log ≠ .exhausted := by
      refine readExpr_ne_exhausted (readRule_means depth) (fun r here log => ih (r := r) log)
        (Rule.steady_body r) here log (fun r' hr' => ?_) ?_
      · have hlt := Rule.height_lt hr'
        simp only [needed] at h ⊢
        omega
      · have hpos := r.height_pos
        simp only [needed] at h
        omega
    simp only [readRule]
    cases hout : readExpr (readRule depth) r.body here log with
    | matched nodes stop log' => simp
    | failed log' => simp
    | exhausted => exact absurd hout hbody

/-! ## Whole texts -/

theorem needed_le_depthFor (r : Rule) (n : Nat) : needed r n ≤ depthFor n :=
  needed_le_of_lt r (Nat.lt_succ_self n)

/-- Reading a rule at the depth for the text is deriving it. -/
theorem readRule_matched_iff {r : Rule} {here stop : Cursor} {nodes : List Node}
    (log : FailureLog) :
    (∃ log', readRule (depthFor here.rest.length) r here log = .matched nodes stop log') ↔
      Reads (.once (.rule r)) here (some (nodes, stop)) := by
  have hmeans := readRule_means (depthFor here.rest.length) r here log
  have hne := readRule_ne_exhausted log (needed_le_depthFor r here.rest.length)
  constructor
  · rintro ⟨log', h⟩
    rwa [h] at hmeans
  · intro h
    cases hout : readRule (depthFor here.rest.length) r here log with
    | matched nodes' stop' log' =>
      rw [hout] at hmeans
      obtain ⟨rfl, rfl⟩ : nodes' = nodes ∧ stop' = stop := by simpa using Reads.unique hmeans h
      exact ⟨log', rfl⟩
    | failed log' =>
      rw [hout] at hmeans
      cases Reads.unique hmeans h
    | exhausted => exact absurd hout hne

/-- A rule either matches or fails. -/
theorem exists_reads (r : Rule) (here : Cursor) :
    ∃ result, Reads (.once (.rule r)) here result := by
  have hmeans := readRule_means (depthFor here.rest.length) r here .empty
  have hne := readRule_ne_exhausted .empty (needed_le_depthFor r here.rest.length)
  cases hout : readRule (depthFor here.rest.length) r here .empty with
  | matched nodes stop log =>
    rw [hout] at hmeans
    exact ⟨_, hmeans⟩
  | failed log =>
    rw [hout] at hmeans
    exact ⟨_, hmeans⟩
  | exhausted => exact absurd hout hne

/-- A rule has a tree for the head of a text where the tree is derivable. -/
theorem parseWith_eq_ok_iff {r : Rule} {source : List Char} {root : Node} :
    parseWith (.rule r) source = .ok root ↔
      ∃ stop, Reads (.once (.rule r)) (.start source) (some ([root], stop)) := by
  have hiff : ∀ nodes stop,
      (∃ log, readRule (depthFor source.length) r ⟨0, source⟩ .empty = .matched nodes stop log) ↔
      Reads (.once (.rule r)) ⟨0, source⟩ (some (nodes, stop)) :=
    fun nodes stop => @readRule_matched_iff r ⟨0, source⟩ stop nodes .empty
  simp only [parseWith, readSymbol, Cursor.start]
  constructor
  · intro h
    cases hout : readRule (depthFor source.length) r ⟨0, source⟩ .empty with
    | matched nodes stop log =>
      have hreads := (hiff nodes stop).1 ⟨log, hout⟩
      cases hreads with
      | rule hbody =>
        rw [hout] at h
        obtain rfl := Except.ok.inj h
        exact ⟨stop, .rule hbody⟩
    | failed log => simp [hout] at h
    | exhausted => simp [hout] at h
  · rintro ⟨stop, h⟩
    obtain ⟨log, hout⟩ := (hiff [root] stop).2 h
    rw [hout]

/-- A source has a tree where the tree is derivable. -/
theorem parse_eq_ok_iff {source : List Char} {root : Node} :
    parse source = .ok root ↔
      ∃ stop, Reads (.once (.rule .compilationUnit)) (.start source) (some ([root], stop)) :=
  parseWith_eq_ok_iff

lemma reads_endOfInput {here stop : Cursor} {nodes : List Node}
    (h : Reads (.once (.token .endOfInput)) here (some (nodes, stop))) :
    here.rest = [] ∧ stop = here ∧ nodes = [.leaf .endOfInput here.offset []] := by
  cases h with
  | token hn =>
    obtain ⟨offset, rest⟩ := here
    cases rest with
    | nil =>
      obtain rfl := by simpa using hn
      exact ⟨rfl, rfl, rfl⟩
    | cons c s => simp at hn

/-- A source is a translation unit, if any, between two gaps. -/
theorem parse_eq_ok_iff_inside {source : List Char} {root : Node} :
    parse source = .ok root ↔
      ∃ inside stop, Reads (.once (.opt (.rule .translationUnit))) (skipGap (.start source))
        (some (inside, stop)) ∧ (skipGap stop).rest = [] ∧
        root = .branch .compilationUnit 0 (skipGap stop).offset
          (inside ++ [.leaf .endOfInput (skipGap stop).offset []]) := by
  rw [parse_eq_ok_iff]
  constructor
  · rintro ⟨stop, h⟩
    cases h with
    | rule hbody =>
      cases hbody with
      | seq hfirst hlast =>
        cases hfirst with
        | seq hnothing hinside =>
          cases hnothing
          obtain ⟨hend, rfl, rfl⟩ := reads_endOfInput hlast
          exact ⟨_, _, hinside, hend, rfl⟩
  · rintro ⟨inside, stop, hinside, hend, rfl⟩
    have hlast : Reads (.once (.token .endOfInput)) (skipGap stop)
        (some ([.leaf .endOfInput (skipGap stop).offset []], skipGap stop)) := by
      have hwidth : Token.endOfInput.width? (skipGap stop).rest = some 0 := by rw [hend]; rfl
      exact .token hwidth
    exact ⟨skipGap stop, .rule (.seq (.seq .nothing hinside) hlast)⟩

end CTree.Parse
