import CTree.Parse.Source
import CTree.Proofs.GrammarShape
import CTree.Proofs.GapStructure

/-!
# Derivations

`Reads goal here result` says what the grammar yields at a place of a text, with
neither a depth nor a clock nor a log: the nodes and the place behind them, or
nothing where the goal does not match. It is the meaning of the readers: a reader
that comes to an answer has a derivation for it, and there is only one answer.
-/
namespace CTree.Text

theorem byteCount_eq_zero_iff {s : List Char} : byteCount s = 0 ↔ s = [] := by
  cases s with
  | nil => simp
  | cons c s =>
    have hpos := c.utf8Size_pos
    simp only [byteCount_cons, reduceCtorEq, iff_false]
    omega

/-- A text is divided in one way at a byte offset. -/
theorem append_inj_of_byteCount {s t u v : List Char} (h : s ++ t = u ++ v)
    (hcount : byteCount s = byteCount u) : s = u ∧ t = v := by
  rcases List.append_eq_append_iff.1 h with ⟨r, rfl, rfl⟩ | ⟨r, rfl, rfl⟩
  · rw [byteCount_append] at hcount
    obtain rfl : r = [] := byteCount_eq_zero_iff.1 (by omega)
    exact ⟨(List.append_nil s).symm, rfl⟩
  · rw [byteCount_append] at hcount
    obtain rfl : r = [] := byteCount_eq_zero_iff.1 (by omega)
    exact ⟨List.append_nil u, rfl⟩

end CTree.Text

namespace CTree.Text.Cursor

/-- Going forward in a text from one place to another. -/
def Reaches (here stop : Cursor) : Prop :=
  ∃ s, here.rest = s ++ stop.rest ∧ stop.offset = here.offset + byteCount s

theorem Reaches.refl (here : Cursor) : here.Reaches here := ⟨[], by simp⟩

theorem Reaches.trans {a b c : Cursor} (h : a.Reaches b) (h' : b.Reaches c) : a.Reaches c := by
  obtain ⟨s, hs, ho⟩ := h
  obtain ⟨t, ht, ho'⟩ := h'
  refine ⟨s ++ t, by rw [hs, ht, List.append_assoc], ?_⟩
  rw [byteCount_append]
  omega

theorem Reaches.length_le {a b : Cursor} (h : a.Reaches b) : b.rest.length ≤ a.rest.length := by
  obtain ⟨s, hs, -⟩ := h
  rw [hs, List.length_append]
  omega

@[simp] theorem advance_rest (n : Nat) (here : Cursor) :
    (here.advance n).rest = here.rest.drop n := by
  rw [advance_eq]

@[simp] theorem advance_offset (n : Nat) (here : Cursor) :
    (here.advance n).offset = here.offset + byteCount (here.rest.take n) := by
  rw [advance_eq]

theorem reaches_advance (n : Nat) (here : Cursor) : here.Reaches (here.advance n) :=
  ⟨here.rest.take n, by simp, by simp⟩

end CTree.Text.Cursor

namespace CTree.Parse
open CTree.Grammar CTree.Lexical CTree.Text

/-- What is to be read: an expression, or further items of a repetition. -/
inductive Goal
  | once (e : Expr Rule)
  | again (e : Expr Rule)

namespace Goal

/-- The expression that the goal is about. -/
def expr : Goal → Expr Rule
  | once e | again e => e

/-- An expression is read where no gap begins, and a repetition goes on anywhere. -/
def Ready : Goal → Cursor → Prop
  | once _, here => gapWidth here.rest = 0
  | again _, _ => True

end Goal

inductive Reads : Goal → Cursor → Option (List Node × Cursor) → Prop
  | nothing {here} : Reads (.once .nothing) here (some ([], here))
  | token {t here n} : t.width? here.rest = some n →
      Reads (.once (.token t)) here
        (some ([.leaf t here.offset (here.rest.take n)], here.advance n))
  | noToken {t here} : t.width? here.rest = none → Reads (.once (.token t)) here none
  | rule {r here nodes stop} : Reads (.once r.body) here (some (nodes, stop)) →
      Reads (.once (.rule r)) here (some ([.branch r here.offset stop.offset nodes], stop))
  | noRule {r here} : Reads (.once r.body) here none → Reads (.once (.rule r)) here none
  | seq {e f here nodes mid more stop} : Reads (.once e) here (some (nodes, mid)) →
      Reads (.once f) (skipGap mid) (some (more, stop)) →
      Reads (.once (.seq e f)) here (some (nodes ++ more, stop))
  | noFirst {e f here} : Reads (.once e) here none → Reads (.once (.seq e f)) here none
  | noSecond {e f here nodes mid} : Reads (.once e) here (some (nodes, mid)) →
      Reads (.once f) (skipGap mid) none → Reads (.once (.seq e f)) here none
  | first {e f here nodes stop} : Reads (.once e) here (some (nodes, stop)) →
      Reads (.once (.alt e f)) here (some (nodes, stop))
  | second {e f here result} : Reads (.once e) here none → Reads (.once f) here result →
      Reads (.once (.alt e f)) here result
  | opt {e here nodes stop} : Reads (.once e) here (some (nodes, stop)) →
      Reads (.once (.opt e)) here (some (nodes, stop))
  | noOpt {e here} : Reads (.once e) here none → Reads (.once (.opt e)) here (some ([], here))
  | many {e here nodes mid more stop} : Reads (.once e) here (some (nodes, mid)) →
      Reads (.again e) mid (some (more, stop)) →
      Reads (.once (.many e)) here (some (nodes ++ more, stop))
  | noMany {e here} : Reads (.once e) here none →
      Reads (.once (.many e)) here (some ([], here))
  | ahead {e here nodes stop} : Reads (.once e) here (some (nodes, stop)) →
      Reads (.once (.ahead e)) here (some ([], here))
  | noAhead {e here} : Reads (.once e) here none → Reads (.once (.ahead e)) here none
  | again {e here nodes mid more stop} :
      Reads (.once e) (skipGap here) (some (nodes, mid)) →
      Reads (.again e) mid (some (more, stop)) →
      Reads (.again e) here (some (nodes ++ more, stop))
  | enough {e here} : Reads (.once e) (skipGap here) none →
      Reads (.again e) here (some ([], here))

/-! ## One answer -/

theorem Reads.unique {goal : Goal} {here : Cursor} {a b : Option (List Node × Cursor)}
    (ha : Reads goal here a) (hb : Reads goal here b) : a = b := by
  induction ha generalizing b with
  | nothing => cases hb; rfl
  | token h => cases hb <;> simp_all
  | noToken h => cases hb <;> simp_all
  | rule _ ih =>
    cases hb with
    | rule h =>
      obtain ⟨rfl, rfl⟩ : _ ∧ _ := by simpa using ih h
      rfl
    | noRule h => cases ih h
  | noRule _ ih =>
    cases hb with
    | rule h => cases ih h
    | noRule h => rfl
  | seq _ _ ih₁ ih₂ =>
    cases hb with
    | seq h₁ h₂ =>
      obtain ⟨rfl, rfl⟩ : _ ∧ _ := by simpa using ih₁ h₁
      simpa using ih₂ h₂
    | noFirst h₁ => cases ih₁ h₁
    | noSecond h₁ h₂ =>
      obtain ⟨rfl, rfl⟩ : _ ∧ _ := by simpa using ih₁ h₁
      cases ih₂ h₂
  | noFirst _ ih =>
    cases hb with
    | seq h₁ _ => cases ih h₁
    | noFirst _ => rfl
    | noSecond h₁ _ => cases ih h₁
  | noSecond _ _ ih₁ ih₂ =>
    cases hb with
    | seq h₁ h₂ =>
      obtain ⟨rfl, rfl⟩ : _ ∧ _ := by simpa using ih₁ h₁
      cases ih₂ h₂
    | noFirst _ => rfl
    | noSecond _ _ => rfl
  | first _ ih =>
    cases hb with
    | first h => exact ih h
    | second h _ => cases ih h
  | second _ _ ih₁ ih₂ =>
    cases hb with
    | first h => cases ih₁ h
    | second _ h => exact ih₂ h
  | opt _ ih =>
    cases hb with
    | opt h => exact ih h
    | noOpt h => cases ih h
  | noOpt _ ih =>
    cases hb with
    | opt h => cases ih h
    | noOpt _ => rfl
  | many _ _ ih₁ ih₂ =>
    cases hb with
    | many h₁ h₂ =>
      obtain ⟨rfl, rfl⟩ : _ ∧ _ := by simpa using ih₁ h₁
      simpa using ih₂ h₂
    | noMany h => cases ih₁ h
  | noMany _ ih =>
    cases hb with
    | many h _ => cases ih h
    | noMany _ => rfl
  | ahead _ ih =>
    cases hb with
    | ahead _ => rfl
    | noAhead h => cases ih h
  | noAhead _ ih =>
    cases hb with
    | ahead h => cases ih h
    | noAhead _ => rfl
  | again _ _ ih₁ ih₂ =>
    cases hb with
    | again h₁ h₂ =>
      obtain ⟨rfl, rfl⟩ : _ ∧ _ := by simpa using ih₁ h₁
      simpa using ih₂ h₂
    | enough h => cases ih₁ h
  | enough _ ih =>
    cases hb with
    | again h _ => cases ih h
    | enough _ => rfl

/-- Induction over the readings that match. A part that was tried in vain leaves no
trace in the nodes, so it has no case of its own. -/
@[elab_as_elim]
theorem Reads.match_induction
    {motive : (goal : Goal) → (here : Cursor) → (nodes : List Node) → (stop : Cursor) →
      Reads goal here (some (nodes, stop)) → Prop}
    (nothing : ∀ here, motive (.once .nothing) here [] here .nothing)
    (token : ∀ t here n (h : t.width? here.rest = some n),
      motive (.once (.token t)) here [.leaf t here.offset (here.rest.take n)] (here.advance n)
        (.token h))
    (rule : ∀ r here nodes stop (h : Reads (.once r.body) here (some (nodes, stop))),
      motive (.once r.body) here nodes stop h →
      motive (.once (.rule r)) here [.branch r here.offset stop.offset nodes] stop (.rule h))
    (seq : ∀ e f here nodes mid more stop (h : Reads (.once e) here (some (nodes, mid)))
      (h' : Reads (.once f) (skipGap mid) (some (more, stop))),
      motive (.once e) here nodes mid h → motive (.once f) (skipGap mid) more stop h' →
      motive (.once (.seq e f)) here (nodes ++ more) stop (.seq h h'))
    (first : ∀ e f here nodes stop (h : Reads (.once e) here (some (nodes, stop))),
      motive (.once e) here nodes stop h →
      motive (.once (.alt e f)) here nodes stop (.first h))
    (second : ∀ e f here nodes stop (h : Reads (.once e) here none)
      (h' : Reads (.once f) here (some (nodes, stop))),
      motive (.once f) here nodes stop h' →
      motive (.once (.alt e f)) here nodes stop (.second h h'))
    (opt : ∀ e here nodes stop (h : Reads (.once e) here (some (nodes, stop))),
      motive (.once e) here nodes stop h → motive (.once (.opt e)) here nodes stop (.opt h))
    (noOpt : ∀ e here (h : Reads (.once e) here none),
      motive (.once (.opt e)) here [] here (.noOpt h))
    (many : ∀ e here nodes mid more stop (h : Reads (.once e) here (some (nodes, mid)))
      (h' : Reads (.again e) mid (some (more, stop))),
      motive (.once e) here nodes mid h → motive (.again e) mid more stop h' →
      motive (.once (.many e)) here (nodes ++ more) stop (.many h h'))
    (noMany : ∀ e here (h : Reads (.once e) here none),
      motive (.once (.many e)) here [] here (.noMany h))
    (ahead : ∀ e here nodes stop (h : Reads (.once e) here (some (nodes, stop))),
      motive (.once (.ahead e)) here [] here (.ahead h))
    (again : ∀ e here nodes mid more stop
      (h : Reads (.once e) (skipGap here) (some (nodes, mid)))
      (h' : Reads (.again e) mid (some (more, stop))),
      motive (.once e) (skipGap here) nodes mid h → motive (.again e) mid more stop h' →
      motive (.again e) here (nodes ++ more) stop (.again h h'))
    (enough : ∀ e here (h : Reads (.once e) (skipGap here) none),
      motive (.again e) here [] here (.enough h))
    {goal : Goal} {here : Cursor} {nodes : List Node} {stop : Cursor}
    (h : Reads goal here (some (nodes, stop))) : motive goal here nodes stop h := by
  suffices ∀ goal here result (h : Reads goal here result) nodes stop
      (heq : result = some (nodes, stop)), motive goal here nodes stop (heq ▸ h) from
    this _ _ _ h _ _ rfl
  clear h
  intro goal here result h
  induction h with
  | nothing => rintro _ _ ⟨⟩; exact nothing _
  | token h => rintro _ _ ⟨⟩; exact token _ _ _ h
  | rule h ih => rintro _ _ ⟨⟩; exact rule _ _ _ _ h (ih _ _ rfl)
  | seq h h' ih ih' => rintro _ _ ⟨⟩; exact seq _ _ _ _ _ _ _ h h' (ih _ _ rfl) (ih' _ _ rfl)
  | first h ih => rintro _ _ ⟨⟩; exact first _ _ _ _ _ h (ih _ _ rfl)
  | second h h' _ ih' => rintro _ _ ⟨⟩; exact second _ _ _ _ _ h h' (ih' _ _ rfl)
  | opt h ih => rintro _ _ ⟨⟩; exact opt _ _ _ _ h (ih _ _ rfl)
  | noOpt h => rintro _ _ ⟨⟩; exact noOpt _ _ h
  | many h h' ih ih' =>
    rintro _ _ ⟨⟩; exact many _ _ _ _ _ _ h h' (ih _ _ rfl) (ih' _ _ rfl)
  | noMany h => rintro _ _ ⟨⟩; exact noMany _ _ h
  | ahead h => rintro _ _ ⟨⟩; exact ahead _ _ _ _ h
  | again h h' ih ih' =>
    rintro _ _ ⟨⟩; exact again _ _ _ _ _ _ h h' (ih _ _ rfl) (ih' _ _ rfl)
  | enough h => rintro _ _ ⟨⟩; exact enough _ _ h
  | noToken | noRule | noFirst | noSecond | noAhead => rintro _ _ ⟨⟩

/-! ## Going forward -/

theorem reaches_skipGap (here : Cursor) : here.Reaches (skipGap here) :=
  Cursor.reaches_advance _ _

theorem skipGap_rest (here : Cursor) : (skipGap here).rest = here.rest.drop (gapWidth here.rest) :=
  Cursor.advance_rest _ _

theorem gapWidth_skipGap (here : Cursor) : gapWidth (skipGap here).rest = 0 := by
  rw [skipGap_rest]
  exact gapWidth_drop_gapWidth _

theorem skipGap_of_gapWidth {here : Cursor} (h : gapWidth here.rest = 0) : skipGap here = here := by
  rw [skipGap, h, Cursor.advance_zero]

/-- A gap that takes no byte is none. -/
theorem skipGap_eq_of_offset {here : Cursor} (h : (skipGap here).offset = here.offset) :
    skipGap here = here := by
  rw [skipGap, Cursor.advance_offset] at h
  have htake : here.rest.take (gapWidth here.rest) = [] := byteCount_eq_zero_iff.1 (by omega)
  rcases List.take_eq_nil_iff.1 htake with hzero | hnil
  · exact skipGap_of_gapWidth hzero
  · have hle := gapWidth_le_length here.rest
    rw [hnil, List.length_nil] at hle
    exact skipGap_of_gapWidth (by rw [hnil]; omega)

theorem Reads.reaches {goal : Goal} {here : Cursor} {nodes : List Node} {stop : Cursor}
    (h : Reads goal here (some (nodes, stop))) : here.Reaches stop := by
  induction h using Reads.match_induction with
  | nothing | noOpt | noMany | ahead | enough => exact .refl _
  | token => exact Cursor.reaches_advance _ _
  | rule _ _ _ _ _ ih | first _ _ _ _ _ _ ih | second _ _ _ _ _ _ _ ih
  | opt _ _ _ _ _ ih => exact ih
  | seq _ _ _ _ mid _ _ _ _ ih ih' => exact ih.trans ((reaches_skipGap mid).trans ih')
  | many _ _ _ _ _ _ _ _ ih ih' => exact ih.trans ih'
  | again _ here _ _ _ _ _ _ ih ih' => exact (reaches_skipGap here).trans (ih.trans ih')

/-- Every token but the end of the text takes a character. -/
theorem consuming_pattern {t : Token} (h : t ≠ .endOfInput) : Pattern.Consuming t.pattern := by
  refine Pattern.consuming_of_takesSome ?_
  cases t with
  | endOfInput => exact absurd rfl h
  | keyword k => cases k <;> decide
  | identifier | constant | stringLiteral => decide
  | punctuator p => cases p <;> decide

/-- What stays inside of a source and reads a token takes a character. -/
theorem Reads.length_lt {e : Expr Rule} {here : Cursor} {nodes : List Node} {stop : Cursor}
    (h : Reads (.once e) here (some (nodes, stop))) (hin : e.inner = true)
    (hreads : e.nullable = false) : stop.rest.length < here.rest.length := by
  generalize hgoal : Goal.once e = goal at h
  induction h using Reads.match_induction generalizing e with
  | nothing | noOpt | noMany | ahead | opt | many =>
    cases hgoal
    simp [Expr.nullable] at hreads
  | again | enough => cases hgoal
  | token t here n hn =>
    cases hgoal
    have ht := Expr.inner_token_iff.1 hin
    have hpos := consuming_pattern ht _ _ hn
    have hle := Pattern.width?_le_length hn
    rw [Cursor.advance_rest, List.length_drop]
    omega
  | rule r here nodes stop _ ih =>
    cases hgoal
    have hr := Expr.inner_rule_iff.1 hin
    exact ih (Rule.inner_body hr) (Rule.nullable_body r) rfl
  | seq e f here nodes mid more stop h h' ih ih' =>
    cases hgoal
    simp only [Expr.inner, Expr.all, Bool.and_eq_true] at hin
    simp only [Expr.nullable, Bool.and_eq_false_iff] at hreads
    have hfirst := h.reaches.length_le
    have hgap := (reaches_skipGap mid).length_le
    have hsecond := h'.reaches.length_le
    rcases hreads with hreads | hreads
    · have := ih hin.1 hreads rfl
      omega
    · have := ih' hin.2 hreads rfl
      omega
  | first e f here nodes stop h ih =>
    cases hgoal
    simp only [Expr.inner, Expr.all, Bool.and_eq_true] at hin
    simp only [Expr.nullable, Bool.or_eq_false_iff] at hreads
    exact ih hin.1 hreads.1 rfl
  | second e f here nodes stop h h' ih =>
    cases hgoal
    simp only [Expr.inner, Expr.all, Bool.and_eq_true] at hin
    simp only [Expr.nullable, Bool.or_eq_false_iff] at hreads
    exact ih hin.2 hreads.2 rfl

end CTree.Parse
