import CTree.Proofs.NodeSpans
import CTree.Proofs.TokenTrials

/-!
# The place of a fault

A fault names one place. It is the furthest one at which a token was tried in vain,
whatever was given up in between: the log never goes back, a token that fails moves it
to where it was tried, and a rule that fails leaves it where its tokens have moved it.
-/
namespace CTree.Parse
open CTree.Grammar CTree.Lexical CTree.Text

theorem FailureLog.note_offset (log : FailureLog) (before offset : Nat) (symbol : Symbol) :
    (log.note before offset symbol).offset = max log.offset offset := by
  unfold note
  split
  · have hat : log.offset = offset := by
      by_contra hne
      simp_all [countAt]
    omega
  · split
    · exact (Nat.max_eq_right (Nat.le_of_lt ‹_›)).symm
    · split
      · dsimp only
        omega
      · omega

/-- A log that went on to the furthest of some places, if this is further than it was. -/
structure FailureLog.Raised (places : Set Nat) (log after : FailureLog) : Prop where
  grows : log.offset ≤ after.offset
  covers : ∀ o ∈ places, o ≤ after.offset
  blamed : after.offset = log.offset ∨ after.offset ∈ places

namespace FailureLog.Raised
variable {places more : Set Nat} {log mid after : FailureLog}

theorem refl (log : FailureLog) : Raised ∅ log log :=
  ⟨Nat.le_refl _, fun _ h => h.elim, .inl rfl⟩

theorem trans (h : Raised places log mid) (h' : Raised more mid after) :
    Raised (places ∪ more) log after := by
  constructor
  · exact h.grows.trans h'.grows
  · intro o ho
    rcases ho with ho | ho
    · exact (h.covers o ho).trans h'.grows
    · exact h'.covers o ho
  · rcases h'.blamed with heq | hin
    · rw [heq]
      exact h.blamed.imp_right .inl
    · exact .inr (.inr hin)

theorem token (log : FailureLog) (before offset : Nat) (symbol : Symbol) :
    Raised {offset} log (log.note before offset symbol) := by
  have hoffset := log.note_offset before offset symbol
  constructor
  · omega
  · rintro o rfl
    omega
  · rcases Nat.le_total offset log.offset with hle | hle
    · exact .inl (by omega)
    · exact .inr (by rw [hoffset, Nat.max_eq_right hle]; rfl)

/-- Behind a failure further on another one at an earlier place changes nothing. -/
theorem note {offset before o : Nat} {symbol : Symbol} (h : Raised places log after)
    (ho : o ∈ places) (hle : offset ≤ o) :
    Raised places log (after.note before offset symbol) := by
  have hcovers := h.covers o ho
  have hoffset := after.note_offset before offset symbol
  rw [Nat.max_eq_left (by omega)] at hoffset
  constructor
  · rw [hoffset]
    exact h.grows
  · rw [hoffset]
    exact h.covers
  · rw [hoffset]
    exact h.blamed

end FailureLog.Raised

/-- What does not match has a token that was tried in vain, here or further on. -/
theorem Reads.exists_failure {goal : Goal} {here : Cursor} (h : Reads goal here none) :
    ∃ o ∈ failures goal here, here.offset ≤ o := by
  generalize hresult : (none : Option (List Node × Cursor)) = result at h
  induction h with
  | nothing | token | rule | seq | first | opt | noOpt | many | noMany | ahead | again
  | enough => cases hresult
  | @noToken t here hn =>
    rw [failures_token_of_none hn]
    exact ⟨here.offset, rfl, Nat.le_refl _⟩
  | noRule _ ih =>
    rw [failures_rule]
    exact ih rfl
  | noFirst h ih =>
    rw [failures_seq_of_none h]
    exact ih rfl
  | @noSecond e f here nodes mid h _ _ ih' =>
    obtain ⟨o, ho, hle⟩ := ih' rfl
    have hmid := h.reaches.trans (reaches_skipGap mid)
    rw [failures_seq_of_some h]
    exact ⟨o, .inr ho, (offset_le_of_reaches hmid).trans hle⟩
  | second h _ ih _ =>
    obtain ⟨o, ho, hle⟩ := ih rfl
    rw [failures_alt_of_none h]
    exact ⟨o, .inl ho, hle⟩
  | noAhead _ ih =>
    rw [failures_ahead]
    exact ih rfl

/-! ## The log of a reader -/

/-- The log with which a reader ends. A reader that is exhausted has none. -/
def Outcome.Logs (places : Set Nat) (log : FailureLog) : Outcome → Prop
  | .matched _ _ after | .failed after => log.Raised places after
  | .exhausted => True

section Readers
variable {readRule : Rule → Reader}

lemma readToken_logs (t : Token) (here : Cursor) (log : FailureLog) :
    (readToken t here log).Logs (failures (.once (.token t)) here) log := by
  cases h : t.width? here.rest with
  | none =>
    simp only [readToken, h, failures_token_of_none h]
    exact .token log _ _ _
  | some n =>
    simp only [readToken, h, failures_token_of_some h]
    exact .refl log

lemma readMore_logs {item : Reader} {e : Expr Rule} (hin : e.inner = true)
    (hnull : e.nullable = false) (hmeans : ∀ here log, (item here log).Means (.once e) here)
    (hitem : ∀ here log, (item here log).Logs (failures (.once e) here) log)
    (clock : List Char) (read : List Node) (here : Cursor) (log : FailureLog)
    (hclock : here.rest.length < clock.length) :
    (readMore item clock read here log).Logs (failures (.again e) here) log := by
  induction clock generalizing read here log with
  | nil => simp at hclock
  | cons c clock ih =>
    have hreads := hmeans (skipGap here) log
    have hlogs := hitem (skipGap here) log
    cases hout : item (skipGap here) log with
    | matched nodes stop mid =>
      rw [hout] at hreads hlogs
      have hshort := Reads.length_lt hreads hin hnull
      have hgap := (reaches_skipGap here).length_le
      have hmore := ih (nodes.reverse ++ read) stop mid
        (by rw [List.length_cons] at hclock; omega)
      simp only [readMore, hout]
      rw [failures_again_of_some hreads]
      cases hrest : readMore item clock (nodes.reverse ++ read) stop mid with
      | matched | failed =>
        rw [hrest] at hmore
        exact FailureLog.Raised.trans hlogs hmore
      | exhausted => trivial
    | failed after =>
      rw [hout] at hreads hlogs
      simp only [readMore, hout]
      rw [failures_again_of_none hreads]
      exact hlogs
    | exhausted => simp only [readMore, hout]; trivial

theorem readExpr_logs
    (hrule : ∀ r here log, (readRule r here log).Means (.once (.rule r)) here)
    (hlogs : ∀ r here log,
      (readRule r here log).Logs (failures (.once (.rule r)) here) log)
    {e : Expr Rule} (hsteady : e.steady = true) (here : Cursor) (log : FailureLog) :
    (readExpr readRule e here log).Logs (failures (.once e) here) log := by
  induction e generalizing here log with
  | nothing =>
    rw [failures_nothing]
    exact .refl log
  | token t => exact readToken_logs t here log
  | rule r => exact hlogs r here log
  | seq e f ihe ihf =>
    simp only [Expr.steady, Bool.and_eq_true] at hsteady
    have hreads := readExpr_means hrule hsteady.1.1 here log
    have he := ihe hsteady.1.1 here log
    simp only [readExpr]
    cases hout : readExpr readRule e here log with
    | matched nodes mid log' =>
      rw [hout] at hreads he
      have hf := ihf hsteady.1.2 (skipGap mid) log'
      rw [failures_seq_of_some hreads]
      simp only
      cases hout' : readExpr readRule f (skipGap mid) log' with
      | matched | failed =>
        rw [hout'] at hf
        exact FailureLog.Raised.trans he hf
      | exhausted => trivial
    | failed log' =>
      rw [hout] at hreads he
      rw [failures_seq_of_none hreads]
      exact he
    | exhausted => trivial
  | alt e f ihe ihf =>
    simp only [Expr.steady, Bool.and_eq_true] at hsteady
    have hreads := readExpr_means hrule hsteady.1 here log
    have he := ihe hsteady.1 here log
    simp only [readExpr]
    cases hout : readExpr readRule e here log with
    | matched nodes stop log' =>
      rw [hout] at hreads he
      rw [failures_alt_of_some hreads]
      exact he
    | failed log' =>
      rw [hout] at hreads he
      have hf := ihf hsteady.2 here log'
      rw [failures_alt_of_none hreads]
      simp only
      cases hout' : readExpr readRule f here log' with
      | matched | failed =>
        rw [hout'] at hf
        exact FailureLog.Raised.trans he hf
      | exhausted => trivial
    | exhausted => trivial
  | opt e ih =>
    have he := ih hsteady here log
    simp only [readExpr, failures_opt]
    cases hout : readExpr readRule e here log with
    | matched | failed => rw [hout] at he; exact he
    | exhausted => trivial
  | many e ih =>
    simp only [Expr.steady, Bool.and_eq_true, Bool.not_eq_true'] at hsteady
    have hmeans := readExpr_means hrule hsteady.1.1
    have hreads := hmeans here log
    have he := ih hsteady.1.1 here log
    simp only [readExpr]
    cases hout : readExpr readRule e here log with
    | matched nodes mid log' =>
      rw [hout] at hreads he
      have hmore := readMore_logs hsteady.1.2 hsteady.2 hmeans (ih hsteady.1.1) here.rest
        nodes.reverse mid log' (Reads.length_lt hreads hsteady.1.2 hsteady.2)
      rw [failures_many_of_some hreads]
      simp only
      cases hout' : readMore (readExpr readRule e) here.rest nodes.reverse mid log' with
      | matched | failed =>
        rw [hout'] at hmore
        exact FailureLog.Raised.trans he hmore
      | exhausted => trivial
    | failed log' =>
      rw [hout] at hreads he
      rw [failures_many_of_none hreads]
      exact he
    | exhausted => trivial
  | ahead e ih =>
    have he := ih hsteady here log
    simp only [readExpr, failures_ahead]
    cases hout : readExpr readRule e here log with
    | matched | failed => rw [hout] at he; exact he
    | exhausted => trivial

end Readers

theorem readRule_logs (depth : Nat) (r : Rule) (here : Cursor) (log : FailureLog) :
    (readRule depth r here log).Logs (failures (.once (.rule r)) here) log := by
  induction depth generalizing r here log with
  | zero => trivial
  | succ depth ih =>
    have hreads := readExpr_means (readRule_means depth) (Rule.steady_body r) here log
    have hbody := readExpr_logs (readRule_means depth) ih (Rule.steady_body r) here log
    simp only [readRule, failures_rule]
    cases hout : readExpr (readRule depth) r.body here log with
    | matched nodes stop after => rw [hout] at hbody; exact hbody
    | failed after =>
      rw [hout] at hbody hreads
      obtain ⟨o, ho, hle⟩ := Reads.exists_failure hreads
      exact FailureLog.Raised.note hbody ho hle
    | exhausted => trivial

/-- The fault of a source is about the furthest place where a token was tried in vain. -/
theorem parse_eq_error {source : List Char} {fault : Fault} (h : parse source = .error fault) :
    Reads (.once (.rule .compilationUnit)) (.start source) none ∧
      IsGreatest (failures (.once (.rule .compilationUnit)) (.start source)) fault.offset := by
  have hmeans := readRule_means (depthFor source.length) .compilationUnit (.start source) .empty
  have hlogs := readRule_logs (depthFor source.length) .compilationUnit (.start source) .empty
  have hne : readRule (depthFor source.length) .compilationUnit (.start source) .empty ≠
      .exhausted := readRule_ne_exhausted .empty (needed_le_depthFor _ _)
  simp only [parse, parseWith, readSymbol] at h
  cases hout : readRule (depthFor source.length) .compilationUnit (.start source) .empty with
  | matched nodes stop log =>
    rw [hout] at hmeans h
    cases hmeans with
    | rule _ => cases h
  | failed log =>
    rw [hout] at hmeans hlogs h
    obtain rfl := Except.error.inj h
    refine ⟨hmeans, ?_, fun o ho => hlogs.covers o ho⟩
    obtain ⟨o, ho, -⟩ := Reads.exists_failure hmeans
    show log.offset ∈ _
    rcases hlogs.blamed with heq | hin
    · -- No token was tried in vain behind the beginning, where the empty log stands.
      have hle := hlogs.covers o ho
      have hzero : log.offset = 0 := heq
      obtain rfl : o = log.offset := by omega
      exact ho
    · exact hin
  | exhausted => exact absurd hout hne

end CTree.Parse
