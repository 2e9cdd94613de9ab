import CTree.Proofs.Adequacy

/-!
# The calls that are open at one time

While a rule is read it asks for rules and tokens, and is itself open until they are done. A
rule that is asked for where the one that asks was begun stands lower in the grammar, and each
turn of a repetition takes a character. So of the calls that are open at one time no two ask for
the same symbol at the same place, and there are no more of them than the number of rules times
that of the characters left allows. The depth that a reader needs is the number of its open calls.
-/
namespace CTree.Lexical.Pattern

/-- What the repetitions of a pattern repeat. -/
def repeated : Pattern → List Pattern
  | word _ | one _ => []
  | seq p q | alt p q => p.repeated ++ q.repeated
  | many p => p :: p.repeated
  | absent p => p.repeated

end CTree.Lexical.Pattern

namespace CTree.Grammar
open CTree.Lexical

/-- What the repetitions of an expression repeat. -/
def Expr.repeated : Expr Rule → List (Expr Rule)
  | nothing | token _ | rule _ => []
  | seq e f | alt e f => e.repeated ++ f.repeated
  | opt e | ahead e => e.repeated
  | many e => e :: e.repeated

theorem Expr.inner_of_mem_repeated {e f : Expr Rule} (h : e ∈ f.repeated)
    (hsteady : f.steady = true) :
    e.steady = true ∧ e.inner = true ∧ e.nullable = false := by
  induction f with
  | nothing | token _ | rule _ => cases h
  | seq f g ihf ihg =>
    simp only [steady, Bool.and_eq_true] at hsteady
    exact (List.mem_append.1 h).elim (ihf · hsteady.1.1) (ihg · hsteady.1.2)
  | alt f g ihf ihg =>
    simp only [steady, Bool.and_eq_true] at hsteady
    exact (List.mem_append.1 h).elim (ihf · hsteady.1) (ihg · hsteady.2)
  | opt f ih | ahead f ih => exact ih h hsteady
  | many f ih =>
    simp only [steady, Bool.and_eq_true, Bool.not_eq_true'] at hsteady
    rcases List.mem_cons.1 h with rfl | h
    · exact ⟨hsteady.1.1, hsteady.1.2, hsteady.2⟩
    · exact ih h hsteady.1.1

/-- How high a symbol stands among those that ask for each other at one place. A token asks for
nothing. -/
def Symbol.height : Symbol → Nat
  | rule r => r.height
  | token _ => 0

theorem Symbol.height_le (s : Symbol) : s.height ≤ Rule.all.length := by
  cases s with
  | rule r => exact r.height_le
  | token t => exact Nat.zero_le _

end CTree.Grammar

namespace CTree.Lexical
open Pattern

/-- Each turn of a repetition in a token takes a character. -/
theorem Token.consuming_of_mem_repeated {t : Token} {p : Pattern} (h : p ∈ t.pattern.repeated) :
    Consuming p := by
  have hall : ∀ t : Token, t.pattern.repeated.all takesSome = true := by
    intro t
    cases t with
    | endOfInput | identifier | constant | stringLiteral => decide
    | keyword k => cases k <;> decide
    | punctuator p => cases p <;> decide
  exact consuming_of_takesSome (List.all_eq_true.1 (hall t) p h)

/-- Each turn of a repetition in a gap takes a character. -/
theorem consuming_of_mem_repeated_gap {p : Pattern} (h : p ∈ gap.repeated) : Consuming p := by
  have hall : gap.repeated.all takesSome = true := by decide
  exact consuming_of_takesSome (List.all_eq_true.1 hall p h)

end CTree.Lexical

namespace CTree.Parse
open CTree.Grammar CTree.Lexical CTree.Text

/-- While the goal is read at a place, a symbol is asked for at another one. -/
inductive Asks : Goal → Cursor → Symbol → Cursor → Prop
  | token {t here} : Asks (.once (.token t)) here (.token t) here
  | rule {r here} : Asks (.once (.rule r)) here (.rule r) here
  | seqFirst {e f here s there} : Asks (.once e) here s there → Asks (.once (.seq e f)) here s there
  | seqSecond {e f here nodes mid s there} : Reads (.once e) here (some (nodes, mid)) →
      Asks (.once f) (skipGap mid) s there → Asks (.once (.seq e f)) here s there
  | altFirst {e f here s there} : Asks (.once e) here s there → Asks (.once (.alt e f)) here s there
  | altSecond {e f here s there} : Reads (.once e) here none → Asks (.once f) here s there →
      Asks (.once (.alt e f)) here s there
  | opt {e here s there} : Asks (.once e) here s there → Asks (.once (.opt e)) here s there
  | ahead {e here s there} : Asks (.once e) here s there → Asks (.once (.ahead e)) here s there
  | manyFirst {e here s there} : Asks (.once e) here s there → Asks (.once (.many e)) here s there
  | manyMore {e here nodes mid s there} : Reads (.once e) here (some (nodes, mid)) →
      Asks (.again e) mid s there → Asks (.once (.many e)) here s there
  | againFirst {e here s there} : Asks (.once e) (skipGap here) s there →
      Asks (.again e) here s there
  | againMore {e here nodes mid s there} : Reads (.once e) (skipGap here) (some (nodes, mid)) →
      Asks (.again e) mid s there → Asks (.again e) here s there

theorem Asks.reaches {goal : Goal} {here there : Cursor} {s : Symbol}
    (h : Asks goal here s there) : here.Reaches there := by
  induction h with
  | token | rule => exact .refl _
  | seqFirst _ ih | altFirst _ ih | altSecond _ _ ih | opt _ ih | ahead _ ih | manyFirst _ ih =>
    exact ih
  | seqSecond hreads _ ih => exact hreads.reaches.trans ((reaches_skipGap _).trans ih)
  | manyMore hreads _ ih => exact hreads.reaches.trans ih
  | againFirst _ ih => exact (reaches_skipGap _).trans ih
  | againMore hreads _ ih => exact (reaches_skipGap _).trans (hreads.reaches.trans ih)

/-- What is asked for before a character was taken is one of the rules that may be called first. -/
theorem Asks.mem_leftRules {e : Expr Rule} {here there : Cursor} {r : Rule}
    (h : Asks (.once e) here (.rule r) there) (hsteady : e.steady = true)
    (hlength : here.rest.length ≤ there.rest.length) : r ∈ e.leftRules := by
  generalize hgoal : Goal.once e = goal at h
  generalize hs : Symbol.rule r = s at h
  induction h generalizing e with
  | token => cases hs
  | rule =>
    cases hgoal
    cases hs
    exact List.mem_singleton_self _
  | seqFirst _ ih =>
    cases hgoal
    simp only [Expr.steady, Bool.and_eq_true] at hsteady
    exact List.mem_append_left _ (ih hsteady.1.1 hlength rfl hs)
  | @seqSecond e f here nodes mid s there hreads hasks ih =>
    cases hgoal
    simp only [Expr.steady, Bool.and_eq_true, Bool.or_eq_true] at hsteady
    have hgap := (reaches_skipGap mid).length_le
    have hle := hasks.reaches.length_le
    have hmid := hreads.reaches.length_le
    refine List.mem_append_right _ ?_
    cases hnull : e.nullable with
    | true => exact ih hsteady.1.2 (by omega) rfl hs
    | false =>
      have hin : e.inner = true := by simpa [hnull] using hsteady.2
      have hlt := hreads.length_lt hin hnull
      omega
  | altFirst _ ih =>
    cases hgoal
    simp only [Expr.steady, Bool.and_eq_true] at hsteady
    exact List.mem_append_left _ (ih hsteady.1 hlength rfl hs)
  | altSecond _ _ ih =>
    cases hgoal
    simp only [Expr.steady, Bool.and_eq_true] at hsteady
    exact List.mem_append_right _ (ih hsteady.2 hlength rfl hs)
  | @opt e _ _ _ _ ih | @ahead e _ _ _ _ ih =>
    cases hgoal
    have hbody : e.steady = true := hsteady
    exact (ih hbody hlength rfl hs :)
  | manyFirst _ ih =>
    cases hgoal
    simp only [Expr.steady, Bool.and_eq_true] at hsteady
    exact (ih hsteady.1.1 hlength rfl hs :)
  | manyMore hreads hasks _ =>
    cases hgoal
    simp only [Expr.steady, Bool.and_eq_true, Bool.not_eq_true'] at hsteady
    have hlt := hreads.length_lt hsteady.1.2 hsteady.2
    have hle := hasks.reaches.length_le
    omega
  | againFirst | againMore => cases hgoal

/-! ## Open calls -/

/-- A symbol that is asked for at a place. -/
structure Call where
  symbol : Symbol
  place : Cursor

namespace Call

/-- While the first call is open it makes the second one. -/
def Opens (c d : Call) : Prop :=
  ∃ r, c.symbol = .rule r ∧ Asks (.once r.body) c.place d.symbol d.place

/-- What each call has less of than the one that makes it. -/
def weight (c : Call) : Nat := c.symbol.height + Rule.all.length * c.place.rest.length

/-- The second call is made further on, or at the same place for a symbol that stands lower. -/
def Above (c d : Call) : Prop := c.place.Reaches d.place ∧ d.weight < c.weight

instance : Trans Above Above Above where
  trans h h' := ⟨h.1.trans h'.1, h'.2.trans h.2⟩

variable {c d : Call}

theorem Opens.above (h : Opens c d) : Above c d := by
  obtain ⟨r, hr, hasks⟩ := h
  refine ⟨hasks.reaches, ?_⟩
  rcases Nat.lt_or_ge d.place.rest.length c.place.rest.length with hlt | hge
  · have hheight := d.symbol.height_le
    have hmul := Nat.mul_le_mul_left Rule.all.length hlt
    have hpos : 0 < c.symbol.height := by
      rw [hr]
      exact r.height_pos
    rw [Nat.succ_eq_add_one, Nat.mul_add_one] at hmul
    simp only [weight]
    omega
  · have hlength := Nat.le_antisymm hasks.reaches.length_le hge
    have hlower : d.symbol.height < c.symbol.height := by
      rw [hr]
      cases hd : d.symbol with
      | token t => exact r.height_pos
      | rule r' =>
        rw [hd] at hasks
        exact Rule.height_lt (hasks.mem_leftRules (Rule.steady_body r) hge)
    rw [weight, weight, hlength]
    exact Nat.add_lt_add_right hlower _

/-- Of two calls one of which was made within the other, begun at one place, the inner one is for
a lower symbol. -/
theorem Above.symbol_ne (h : Above c d) (hoffset : c.place.offset = d.place.offset) :
    c.symbol ≠ d.symbol := by
  obtain ⟨⟨s, hrest, hcount⟩, hweight⟩ := h
  obtain rfl : s = [] := byteCount_eq_zero_iff.1 (by omega)
  rintro hsymbol
  rw [weight, weight, hsymbol, hrest, List.nil_append] at hweight
  exact Nat.lt_irrefl _ hweight

theorem length_le_weight {calls : List Call} (h : (c :: calls).IsChain Above) :
    (c :: calls).length ≤ c.weight + 1 := by
  induction calls generalizing c with
  | nil => simp
  | cons d calls ih =>
    obtain ⟨habove, htail⟩ := List.isChain_cons_cons.1 h
    have hlength := ih htail
    have hweight := habove.2
    rw [List.length_cons]
    omega

theorem length_le {calls : List Call} (h : (c :: calls).IsChain Above) :
    (c :: calls).length ≤ (Rule.all.length + 1) * (c.place.rest.length + 1) := by
  have hheight := c.symbol.height_le
  calc (c :: calls).length
      ≤ c.symbol.height + Rule.all.length * c.place.rest.length + 1 := length_le_weight h
    _ ≤ Rule.all.length + Rule.all.length * c.place.rest.length + 1 := by omega
    _ = Rule.all.length * (c.place.rest.length + 1) + 1 := by
        rw [Nat.mul_add_one, Nat.add_comm (_ * _)]
    _ ≤ Rule.all.length * (c.place.rest.length + 1) + (c.place.rest.length + 1) := by omega
    _ = (Rule.all.length + 1) * (c.place.rest.length + 1) := (Nat.succ_mul _ _).symm

end Call

/-! ## The depth of a reader -/

section Readers
variable {readRule : Rule → Reader} {e : Expr Rule} {here there : Cursor} {r : Rule}

/-- A reader of rules is exhausted by one that the goal asks for. -/
def AsksTooDeep (readRule : Rule → Reader) (goal : Goal) (here : Cursor) : Prop :=
  ∃ r there log, Asks goal here (.rule r) there ∧ readRule r there log = .exhausted

lemma readMore_asksTooDeep {item : Reader}
    (hmeans : ∀ here log, (item here log).Means (.once e) here)
    (hitem : ∀ here log, item here log = .exhausted → AsksTooDeep readRule (.once e) here)
    {clock : List Char} {read : List Node} {log : FailureLog}
    (h : readMore item clock read here log = .exhausted) :
    AsksTooDeep readRule (.again e) here := by
  induction clock generalizing read here log with
  | nil => cases h
  | cons c clock ih =>
    have hreads := hmeans (skipGap here) log
    simp only [readMore] at h
    cases hout : item (skipGap here) log with
    | matched nodes stop after =>
      rw [hout] at h hreads
      obtain ⟨r, there, log, hasks, hex⟩ := ih h
      exact ⟨r, there, log, .againMore hreads hasks, hex⟩
    | failed after =>
      rw [hout] at h
      cases h
    | exhausted =>
      obtain ⟨r, there, log, hasks, hex⟩ := hitem _ _ hout
      exact ⟨r, there, log, .againFirst hasks, hex⟩

/-- A reader of expressions is exhausted only by a rule that it asks for. -/
theorem readExpr_asksTooDeep
    (hrule : ∀ r here log, (readRule r here log).Means (.once (.rule r)) here)
    (hsteady : e.steady = true) {log : FailureLog}
    (h : readExpr readRule e here log = .exhausted) : AsksTooDeep readRule (.once e) here := by
  induction e generalizing here log with
  | nothing => cases h
  | token t =>
    simp only [readExpr, readToken] at h
    split at h <;> cases h
  | rule r => exact ⟨r, here, log, .rule, h⟩
  | seq e f ihe ihf =>
    simp only [Expr.steady, Bool.and_eq_true] at hsteady
    have hreads := readExpr_means hrule hsteady.1.1 here log
    simp only [readExpr] at h
    cases hout : readExpr readRule e here log with
    | matched nodes mid after =>
      rw [hout] at hreads
      cases hout' : readExpr readRule f (skipGap mid) after with
      | matched | failed => simp [hout, hout'] at h
      | exhausted =>
        obtain ⟨r, there, log, hasks, hex⟩ := ihf hsteady.1.2 hout'
        exact ⟨r, there, log, .seqSecond hreads hasks, hex⟩
    | failed after =>
      rw [hout] at h
      cases h
    | exhausted =>
      obtain ⟨r, there, log, hasks, hex⟩ := ihe hsteady.1.1 hout
      exact ⟨r, there, log, .seqFirst hasks, hex⟩
  | alt e f ihe ihf =>
    simp only [Expr.steady, Bool.and_eq_true] at hsteady
    have hreads := readExpr_means hrule hsteady.1 here log
    simp only [readExpr] at h
    cases hout : readExpr readRule e here log with
    | matched nodes mid after =>
      rw [hout] at h
      cases h
    | failed after =>
      rw [hout] at h hreads
      obtain ⟨r, there, log, hasks, hex⟩ := ihf hsteady.2 h
      exact ⟨r, there, log, .altSecond hreads hasks, hex⟩
    | exhausted =>
      obtain ⟨r, there, log, hasks, hex⟩ := ihe hsteady.1 hout
      exact ⟨r, there, log, .altFirst hasks, hex⟩
  | opt e ih =>
    simp only [readExpr] at h
    cases hout : readExpr readRule e here log with
    | matched | failed =>
      rw [hout] at h
      cases h
    | exhausted =>
      obtain ⟨r, there, log, hasks, hex⟩ := ih hsteady hout
      exact ⟨r, there, log, .opt hasks, hex⟩
  | ahead e ih =>
    simp only [readExpr] at h
    cases hout : readExpr readRule e here log with
    | matched | failed =>
      rw [hout] at h
      cases h
    | exhausted =>
      obtain ⟨r, there, log, hasks, hex⟩ := ih hsteady hout
      exact ⟨r, there, log, .ahead hasks, hex⟩
  | many e ih =>
    simp only [Expr.steady, Bool.and_eq_true] at hsteady
    have hmeans := readExpr_means hrule hsteady.1.1
    have hreads := hmeans here log
    simp only [readExpr] at h
    cases hout : readExpr readRule e here log with
    | matched nodes mid after =>
      rw [hout] at h hreads
      obtain ⟨r, there, log, hasks, hex⟩ :=
        readMore_asksTooDeep hmeans (fun _ _ => ih hsteady.1.1) h
      exact ⟨r, there, log, .manyMore hreads hasks, hex⟩
    | failed after =>
      rw [hout] at h
      cases h
    | exhausted =>
      obtain ⟨r, there, log, hasks, hex⟩ := ih hsteady.1.1 hout
      exact ⟨r, there, log, .manyFirst hasks, hex⟩

/-- A reader that is not exhausted answers as the goal is read. -/
lemma readExpr_of_reads
    (hrule : ∀ r here log, (readRule r here log).Means (.once (.rule r)) here)
    (hsteady : e.steady = true) (log : FailureLog) {nodes : List Node} {mid : Cursor}
    (h : Reads (.once e) here (some (nodes, mid))) :
    readExpr readRule e here log = .exhausted ∨
      ∃ after, readExpr readRule e here log = .matched nodes mid after := by
  have hmeans := readExpr_means hrule hsteady here log
  cases hout : readExpr readRule e here log with
  | exhausted => exact .inl rfl
  | matched nodes stop after =>
    rw [hout] at hmeans
    cases h.unique hmeans
    exact .inr ⟨after, rfl⟩
  | failed after =>
    rw [hout] at hmeans
    cases h.unique hmeans

lemma readExpr_of_reads_none
    (hrule : ∀ r here log, (readRule r here log).Means (.once (.rule r)) here)
    (hsteady : e.steady = true) (log : FailureLog) (h : Reads (.once e) here none) :
    readExpr readRule e here log = .exhausted ∨
      ∃ after, readExpr readRule e here log = .failed after := by
  have hmeans := readExpr_means hrule hsteady here log
  cases hout : readExpr readRule e here log with
  | exhausted => exact .inl rfl
  | matched nodes stop after =>
    rw [hout] at hmeans
    cases h.unique hmeans
  | failed after => exact .inr ⟨after, rfl⟩

/-- The reader of a goal is exhausted, whatever was logged before. -/
def Exhausts (readRule : Rule → Reader) : Goal → Cursor → Prop
  | .once e, here => e.steady = true → ∀ log, readExpr readRule e here log = .exhausted
  | .again e, here => e.steady = true → e.inner = true → e.nullable = false →
    ∀ clock read log, here.rest.length < clock.length →
      readMore (readExpr readRule e) clock read here log = .exhausted

/-- A reader that asks for a rule which exhausts it is exhausted. -/
theorem Asks.exhausts
    (hrule : ∀ r here log, (readRule r here log).Means (.once (.rule r)) here)
    {goal : Goal} (h : Asks goal here (.rule r) there)
    (hex : ∀ log, readRule r there log = .exhausted) : Exhausts readRule goal here := by
  generalize hs : Symbol.rule r = s at h
  induction h with
  | token => cases hs
  | rule =>
    cases hs
    exact fun _ => hex
  | seqFirst _ ih =>
    intro hsteady log
    simp only [Expr.steady, Bool.and_eq_true] at hsteady
    simp only [readExpr, ih hex hs hsteady.1.1 log]
  | seqSecond hreads _ ih =>
    intro hsteady log
    simp only [Expr.steady, Bool.and_eq_true] at hsteady
    rcases readExpr_of_reads hrule hsteady.1.1 log hreads with hout | ⟨after, hout⟩
    · simp only [readExpr, hout]
    · simp only [readExpr, hout, ih hex hs hsteady.1.2 after]
  | altFirst _ ih =>
    intro hsteady log
    simp only [Expr.steady, Bool.and_eq_true] at hsteady
    simp only [readExpr, ih hex hs hsteady.1 log]
  | altSecond hreads _ ih =>
    intro hsteady log
    simp only [Expr.steady, Bool.and_eq_true] at hsteady
    rcases readExpr_of_reads_none hrule hsteady.1 log hreads with hout | ⟨after, hout⟩
    · simp only [readExpr, hout]
    · simp only [readExpr, hout, ih hex hs hsteady.2 after]
  | opt _ ih | ahead _ ih =>
    intro hsteady log
    have hbody := ih hex hs hsteady log
    simp only [readExpr, hbody]
  | manyFirst _ ih =>
    intro hsteady log
    simp only [Expr.steady, Bool.and_eq_true] at hsteady
    simp only [readExpr, ih hex hs hsteady.1.1 log]
  | manyMore hreads _ ih =>
    intro hsteady log
    simp only [Expr.steady, Bool.and_eq_true, Bool.not_eq_true'] at hsteady
    have hlt := hreads.length_lt hsteady.1.2 hsteady.2
    rcases readExpr_of_reads hrule hsteady.1.1 log hreads with hout | ⟨after, hout⟩
    · simp only [readExpr, hout]
    · simp only [readExpr, hout, ih hex hs hsteady.1.1 hsteady.1.2 hsteady.2 _ _ after hlt]
  | @againFirst e here _ _ _ ih =>
    intro hsteady _ _ clock read log hclock
    cases clock with
    | nil => cases hclock
    | cons c clock => simp only [readMore, ih hex hs hsteady log]
  | @againMore e here nodes mid _ _ hreads _ ih =>
    intro hsteady hin hnull clock read log hclock
    cases clock with
    | nil => cases hclock
    | cons c clock =>
      have hlt := hreads.length_lt hin hnull
      have hgap := (reaches_skipGap here).length_le
      rw [List.length_cons] at hclock
      rcases readExpr_of_reads hrule hsteady log hreads with hout | ⟨after, hout⟩
      · simp only [readMore, hout]
      · simp only [readMore, hout]
        exact ih hex hs hsteady hin hnull clock _ after (by omega)

end Readers

/-- The call asks for a rule. -/
def Call.IsRule (c : Call) : Prop := ∃ r, c.symbol = .rule r

/-- A depth is exhausted exactly if more rules than it allows can be open at one time. -/
theorem readRule_eq_exhausted_iff {depth : Nat} {r : Rule} {here : Cursor} {log : FailureLog} :
    readRule depth r here log = .exhausted ↔
      ∃ calls, (⟨.rule r, here⟩ :: calls).IsChain Call.Opens ∧ (∀ c ∈ calls, c.IsRule) ∧
        depth ≤ calls.length := by
  have hmeans := readRule_means
  constructor
  · intro h
    induction depth generalizing r here log with
    | zero => exact ⟨[], .singleton _, by simp, Nat.zero_le _⟩
    | succ depth ih =>
      have hbody : readExpr (readRule depth) r.body here log = .exhausted := by
        simp only [readRule] at h
        cases hout : readExpr (readRule depth) r.body here log with
        | matched | failed =>
          rw [hout] at h
          cases h
        | exhausted => rfl
      obtain ⟨r', there, log', hasks, hex⟩ :=
        readExpr_asksTooDeep (hmeans depth) (Rule.steady_body r) hbody
      obtain ⟨calls, hchain, hrules, hlength⟩ := ih hex
      refine ⟨⟨.rule r', there⟩ :: calls, .cons_cons ⟨r, rfl, hasks⟩ hchain, ?_, ?_⟩
      · exact List.forall_mem_cons.2 ⟨⟨r', rfl⟩, hrules⟩
      · rw [List.length_cons]
        omega
  · rintro ⟨calls, hchain, hrules, hlength⟩
    induction depth generalizing r here log calls with
    | zero => rfl
    | succ depth ih =>
      cases calls with
      | nil => cases hlength
      | cons c calls =>
        obtain ⟨⟨r₁, hr, hasks⟩, htail⟩ := List.isChain_cons_cons.1 hchain
        obtain ⟨⟨r', hc⟩, hrest⟩ := List.forall_mem_cons.1 hrules
        obtain ⟨s, there⟩ := c
        obtain rfl : s = .rule r' := hc
        obtain rfl : r = r₁ := Symbol.rule.inj hr
        rw [List.length_cons] at hlength
        have hex := hasks.exhausts (hmeans depth) fun log => ih calls htail hrest (by omega)
        simp only [readRule, hex (Rule.steady_body r) log]

lemma readToken_ne_exhausted (t : Token) (here : Cursor) (log : FailureLog) :
    readToken t here log ≠ .exhausted := by
  cases h : t.width? here.rest <;> simp [readToken, h]

theorem readSymbol_eq_exhausted_iff {depth : Nat} {c : Call} {log : FailureLog} :
    readSymbol depth c.symbol c.place log = .exhausted ↔
      ∃ calls, (c :: calls).IsChain Call.Opens ∧ (∀ d ∈ c :: calls, d.IsRule) ∧
        depth < (c :: calls).length := by
  obtain ⟨s, here⟩ := c
  cases s with
  | rule r =>
    have hrule : Call.IsRule ⟨.rule r, here⟩ := ⟨r, rfl⟩
    simp only [readSymbol, readRule_eq_exhausted_iff, List.forall_mem_cons, hrule, true_and,
      List.length_cons, Nat.lt_succ_iff]
  | token t =>
    constructor
    · intro h
      exact absurd h (readToken_ne_exhausted t here log)
    · rintro ⟨calls, -, hrules, -⟩
      obtain ⟨r, hr⟩ := hrules _ List.mem_cons_self
      cases hr

/-- No symbol is asked for again at one place while it is read there, and each turn of a
repetition takes a character. So the calls that are open at one time are limited by the number of
characters that are left, and a reader that may go as deep comes to an end at every place. -/
theorem reading_ends (c : Call) :
    (∀ calls, (c :: calls).IsChain Call.Opens →
      (c :: calls).Pairwise (fun a b => a.place.offset = b.place.offset → a.symbol ≠ b.symbol) ∧
      (c :: calls).length ≤ (Rule.all.length + 1) * (c.place.rest.length + 1)) ∧
    (∀ r : Rule, ∀ e ∈ r.body.repeated, ∀ depth here log nodes stop after,
      readExpr (readRule depth) e here log = .matched nodes stop after →
      stop.rest.length < here.rest.length) ∧
    (∀ p, p = gap ∨ (∃ t : Token, p = t.pattern) → ∀ q ∈ p.repeated, Pattern.Consuming q) ∧
    (∀ depth log, readSymbol depth c.symbol c.place log = .exhausted ↔
      ∃ calls, (c :: calls).IsChain Call.Opens ∧ (∀ d ∈ c :: calls, d.IsRule) ∧
        depth < (c :: calls).length) ∧
    ∀ depth log, depthFor c.place.rest.length ≤ depth →
      readSymbol depth c.symbol c.place log ≠ .exhausted := by
  refine ⟨fun calls hchain => ?_, ?_, ?_, fun depth log => readSymbol_eq_exhausted_iff,
    fun depth log hdepth => ?_⟩
  · have habove := hchain.imp fun _ _ => Call.Opens.above
    exact ⟨habove.pairwise.imp fun h => h.symbol_ne, Call.length_le habove⟩
  · intro r e he depth place log nodes stop after h
    obtain ⟨hsteady, hin, hnull⟩ := Expr.inner_of_mem_repeated he (Rule.steady_body r)
    have hmeans := readExpr_means (readRule_means depth) hsteady place log
    rw [h] at hmeans
    exact Reads.length_lt hmeans hin hnull
  · rintro p (rfl | ⟨t, rfl⟩) q hq
    · exact consuming_of_mem_repeated_gap hq
    · exact Token.consuming_of_mem_repeated hq
  · cases hc : c.symbol with
    | rule r => exact readRule_ne_exhausted log ((needed_le_depthFor r _).trans hdepth)
    | token t => exact readToken_ne_exhausted t c.place log

end CTree.Parse
