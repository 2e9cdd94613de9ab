import CTree.Proofs.Adequacy

/-!
# The tokens that are tried

While a goal is read, tokens are tried: those of the nodes that are read, but also
those of alternatives given up later, and of what is only looked at ahead. The failure
log keeps none of this apart, but it keeps the furthest place where a token was tried
in vain, and this is the place that the fault of a source is about.
-/
namespace CTree.Parse
open CTree.Grammar CTree.Lexical CTree.Text

/-- While the goal is read at a place, the token is tried at another one. The nodes are
those read in between by the parts that are not yet complete. -/
inductive Tries : Goal → Cursor → Token → List Node → Cursor → Prop
  | token {t here} : Tries (.once (.token t)) here t [] here
  | rule {r here t read there} : Tries (.once r.body) here t read there →
      Tries (.once (.rule r)) here t read there
  | seqFirst {e f here t read there} : Tries (.once e) here t read there →
      Tries (.once (.seq e f)) here t read there
  | seqSecond {e f here nodes mid t read there} : Reads (.once e) here (some (nodes, mid)) →
      Tries (.once f) (skipGap mid) t read there →
      Tries (.once (.seq e f)) here t (nodes ++ read) there
  | altFirst {e f here t read there} : Tries (.once e) here t read there →
      Tries (.once (.alt e f)) here t read there
  | altSecond {e f here t read there} : Reads (.once e) here none →
      Tries (.once f) here t read there → Tries (.once (.alt e f)) here t read there
  | opt {e here t read there} : Tries (.once e) here t read there →
      Tries (.once (.opt e)) here t read there
  | ahead {e here t read there} : Tries (.once e) here t read there →
      Tries (.once (.ahead e)) here t read there
  | manyFirst {e here t read there} : Tries (.once e) here t read there →
      Tries (.once (.many e)) here t read there
  | manyMore {e here nodes mid t read there} : Reads (.once e) here (some (nodes, mid)) →
      Tries (.again e) mid t read there → Tries (.once (.many e)) here t (nodes ++ read) there
  | againFirst {e here t read there} : Tries (.once e) (skipGap here) t read there →
      Tries (.again e) here t read there
  | againMore {e here nodes mid t read there} :
      Reads (.once e) (skipGap here) (some (nodes, mid)) → Tries (.again e) mid t read there →
      Tries (.again e) here t (nodes ++ read) there

theorem Tries.reaches {goal : Goal} {here there : Cursor} {t : Token} {read : List Node}
    (h : Tries goal here t read there) : here.Reaches there := by
  induction h with
  | token => exact .refl _
  | rule _ ih | seqFirst _ ih | altFirst _ ih | altSecond _ _ ih | opt _ ih | ahead _ ih
  | manyFirst _ ih => exact ih
  | seqSecond hreads _ ih => exact hreads.reaches.trans ((reaches_skipGap _).trans ih)
  | manyMore hreads _ ih => exact hreads.reaches.trans ih
  | againFirst _ ih => exact (reaches_skipGap _).trans ih
  | againMore hreads _ ih => exact (reaches_skipGap _).trans (hreads.reaches.trans ih)

/-- The byte offsets at which a token is tried in vain. -/
def failures (goal : Goal) (here : Cursor) : Set Nat :=
  {offset | ∃ t read there, Tries goal here t read there ∧ t.width? there.rest = none ∧
    there.offset = offset}

/-! ## One equation for each constructor -/

section Equations
variable {e f : Expr Rule} {r : Rule} {t : Token} {here mid : Cursor} {nodes : List Node}

theorem failures_nothing : failures (.once .nothing) here = ∅ := by
  ext o
  constructor
  · rintro ⟨_, _, _, htries, -⟩
    cases htries
  · exact False.elim

theorem failures_token_of_some {n : Nat} (h : t.width? here.rest = some n) :
    failures (.once (.token t)) here = ∅ := by
  ext o
  constructor
  · rintro ⟨_, _, _, htries, hnone, -⟩
    cases htries
    rw [h] at hnone
    cases hnone
  · exact False.elim

theorem failures_token_of_none (h : t.width? here.rest = none) :
    failures (.once (.token t)) here = {here.offset} := by
  ext o
  constructor
  · rintro ⟨_, _, _, htries, -, rfl⟩
    cases htries
    rfl
  · rintro rfl
    exact ⟨t, [], here, .token, h, rfl⟩

theorem failures_rule : failures (.once (.rule r)) here = failures (.once r.body) here := by
  ext o
  constructor
  · rintro ⟨t, read, there, htries, hfail⟩
    cases htries with
    | rule htries => exact ⟨t, read, there, htries, hfail⟩
  · rintro ⟨t, read, there, htries, hfail⟩
    exact ⟨t, read, there, .rule htries, hfail⟩

theorem failures_seq_of_some (h : Reads (.once e) here (some (nodes, mid))) :
    failures (.once (.seq e f)) here =
      failures (.once e) here ∪ failures (.once f) (skipGap mid) := by
  ext o
  constructor
  · rintro ⟨t, read, there, htries, hfail⟩
    cases htries with
    | seqFirst htries => exact .inl ⟨t, read, there, htries, hfail⟩
    | seqSecond hreads htries =>
      cases hreads.unique h
      exact .inr ⟨t, _, there, htries, hfail⟩
  · rintro (⟨t, read, there, htries, hfail⟩ | ⟨t, read, there, htries, hfail⟩)
    · exact ⟨t, read, there, .seqFirst htries, hfail⟩
    · exact ⟨t, _, there, .seqSecond h htries, hfail⟩

theorem failures_seq_of_none (h : Reads (.once e) here none) :
    failures (.once (.seq e f)) here = failures (.once e) here := by
  ext o
  constructor
  · rintro ⟨t, read, there, htries, hfail⟩
    cases htries with
    | seqFirst htries => exact ⟨t, read, there, htries, hfail⟩
    | seqSecond hreads _ => cases hreads.unique h
  · rintro ⟨t, read, there, htries, hfail⟩
    exact ⟨t, read, there, .seqFirst htries, hfail⟩

theorem failures_alt_of_some (h : Reads (.once e) here (some (nodes, mid))) :
    failures (.once (.alt e f)) here = failures (.once e) here := by
  ext o
  constructor
  · rintro ⟨t, read, there, htries, hfail⟩
    cases htries with
    | altFirst htries => exact ⟨t, read, there, htries, hfail⟩
    | altSecond hreads _ => cases hreads.unique h
  · rintro ⟨t, read, there, htries, hfail⟩
    exact ⟨t, read, there, .altFirst htries, hfail⟩

theorem failures_alt_of_none (h : Reads (.once e) here none) :
    failures (.once (.alt e f)) here = failures (.once e) here ∪ failures (.once f) here := by
  ext o
  constructor
  · rintro ⟨t, read, there, htries, hfail⟩
    cases htries with
    | altFirst htries => exact .inl ⟨t, read, there, htries, hfail⟩
    | altSecond _ htries => exact .inr ⟨t, read, there, htries, hfail⟩
  · rintro (⟨t, read, there, htries, hfail⟩ | ⟨t, read, there, htries, hfail⟩)
    · exact ⟨t, read, there, .altFirst htries, hfail⟩
    · exact ⟨t, read, there, .altSecond h htries, hfail⟩

theorem failures_opt : failures (.once (.opt e)) here = failures (.once e) here := by
  ext o
  constructor
  · rintro ⟨t, read, there, htries, hfail⟩
    cases htries with
    | opt htries => exact ⟨t, read, there, htries, hfail⟩
  · rintro ⟨t, read, there, htries, hfail⟩
    exact ⟨t, read, there, .opt htries, hfail⟩

theorem failures_ahead : failures (.once (.ahead e)) here = failures (.once e) here := by
  ext o
  constructor
  · rintro ⟨t, read, there, htries, hfail⟩
    cases htries with
    | ahead htries => exact ⟨t, read, there, htries, hfail⟩
  · rintro ⟨t, read, there, htries, hfail⟩
    exact ⟨t, read, there, .ahead htries, hfail⟩

theorem failures_many_of_some (h : Reads (.once e) here (some (nodes, mid))) :
    failures (.once (.many e)) here = failures (.once e) here ∪ failures (.again e) mid := by
  ext o
  constructor
  · rintro ⟨t, read, there, htries, hfail⟩
    cases htries with
    | manyFirst htries => exact .inl ⟨t, read, there, htries, hfail⟩
    | manyMore hreads htries =>
      cases hreads.unique h
      exact .inr ⟨t, _, there, htries, hfail⟩
  · rintro (⟨t, read, there, htries, hfail⟩ | ⟨t, read, there, htries, hfail⟩)
    · exact ⟨t, read, there, .manyFirst htries, hfail⟩
    · exact ⟨t, _, there, .manyMore h htries, hfail⟩

theorem failures_many_of_none (h : Reads (.once e) here none) :
    failures (.once (.many e)) here = failures (.once e) here := by
  ext o
  constructor
  · rintro ⟨t, read, there, htries, hfail⟩
    cases htries with
    | manyFirst htries => exact ⟨t, read, there, htries, hfail⟩
    | manyMore hreads _ => cases hreads.unique h
  · rintro ⟨t, read, there, htries, hfail⟩
    exact ⟨t, read, there, .manyFirst htries, hfail⟩

theorem failures_again_of_some (h : Reads (.once e) (skipGap here) (some (nodes, mid))) :
    failures (.again e) here = failures (.once e) (skipGap here) ∪ failures (.again e) mid := by
  ext o
  constructor
  · rintro ⟨t, read, there, htries, hfail⟩
    cases htries with
    | againFirst htries => exact .inl ⟨t, read, there, htries, hfail⟩
    | againMore hreads htries =>
      cases hreads.unique h
      exact .inr ⟨t, _, there, htries, hfail⟩
  · rintro (⟨t, read, there, htries, hfail⟩ | ⟨t, read, there, htries, hfail⟩)
    · exact ⟨t, read, there, .againFirst htries, hfail⟩
    · exact ⟨t, _, there, .againMore h htries, hfail⟩

theorem failures_again_of_none (h : Reads (.once e) (skipGap here) none) :
    failures (.again e) here = failures (.once e) (skipGap here) := by
  ext o
  constructor
  · rintro ⟨t, read, there, htries, hfail⟩
    cases htries with
    | againFirst htries => exact ⟨t, read, there, htries, hfail⟩
    | againMore hreads _ => cases hreads.unique h
  · rintro ⟨t, read, there, htries, hfail⟩
    exact ⟨t, read, there, .againFirst htries, hfail⟩

end Equations
end CTree.Parse
