import CTree.Proofs.EmbeddedExpression

/-!
# The operand of `sizeof`

Behind `sizeof` a type in parentheses is tried before an expression. An expression that begins
with one, such as a compound literal, is therefore not read to its end there. What is read at
a place depends on the text behind it only, so it can be told from the expression alone.
-/
namespace CTree.Parse
open CTree.Grammar CTree.Lexical CTree.Lexical.Pattern CTree.Text

/-! ## At another offset -/

/-- The result of reading the goal at a place, when the same text is left behind it as behind
the result of reading it at another place. -/
inductive Elsewhere (goal : Goal) (there : Cursor) : Option (List Node × Cursor) → Prop
  | none : Reads goal there none → Elsewhere goal there none
  | some {nodes stop nodes' stop'} : Reads goal there (some (nodes', stop')) →
      stop'.rest = stop.rest → Elsewhere goal there (some (nodes, stop))

lemma skipGap_rest_congr {here there : Cursor} (h : there.rest = here.rest) :
    (skipGap there).rest = (skipGap here).rest := by
  rw [skipGap_rest, skipGap_rest, h]

/-- What is read does not depend on the offset of the place. -/
theorem Reads.elsewhere {goal : Goal} {here : Cursor} {result : Option (List Node × Cursor)}
    (h : Reads goal here result) (there : Cursor) (hrest : there.rest = here.rest) :
    Elsewhere goal there result := by
  induction h generalizing there with
  | nothing => exact .some .nothing hrest
  | token hn => exact .some (.token (by rw [hrest]; exact hn)) (by simp [hrest])
  | noToken hn => exact .none (.noToken (by rw [hrest]; exact hn))
  | rule _ ih =>
    cases ih _ hrest with
    | some h hstop => exact .some (.rule h) hstop
  | noRule _ ih =>
    cases ih _ hrest with
    | none h => exact .none (.noRule h)
  | seq _ _ ih ih' =>
    cases ih _ hrest with
    | some h hmid =>
      cases ih' _ (skipGap_rest_congr hmid) with
      | some h' hstop => exact .some (.seq h h') hstop
  | noFirst _ ih =>
    cases ih _ hrest with
    | none h => exact .none (.noFirst h)
  | noSecond _ _ ih ih' =>
    cases ih _ hrest with
    | some h hmid =>
      cases ih' _ (skipGap_rest_congr hmid) with
      | none h' => exact .none (.noSecond h h')
  | first _ ih =>
    cases ih _ hrest with
    | some h hstop => exact .some (.first h) hstop
  | second _ _ ih ih' =>
    cases ih _ hrest with
    | none h =>
      cases ih' _ hrest with
      | none h' => exact .none (.second h h')
      | some h' hstop => exact .some (.second h h') hstop
  | opt _ ih =>
    cases ih _ hrest with
    | some h hstop => exact .some (.opt h) hstop
  | noOpt _ ih =>
    cases ih _ hrest with
    | none h => exact .some (.noOpt h) hrest
  | many _ _ ih ih' =>
    cases ih _ hrest with
    | some h hmid =>
      cases ih' _ hmid with
      | some h' hstop => exact .some (.many h h') hstop
  | noMany _ ih =>
    cases ih _ hrest with
    | none h => exact .some (.noMany h) hrest
  | ahead _ ih =>
    cases ih _ hrest with
    | some h _ => exact .some (.ahead h) hrest
  | noAhead _ ih =>
    cases ih _ hrest with
    | none h => exact .none (.noAhead h)
  | again _ _ ih ih' =>
    cases ih _ (skipGap_rest_congr hrest) with
    | some h hmid =>
      cases ih' _ hmid with
      | some h' hstop => exact .some (.again h h') hstop
  | enough _ ih =>
    cases ih _ (skipGap_rest_congr hrest) with
    | none h => exact .some (.enough h) hrest

/-! ## A type in parentheses -/

/-- A type in parentheses is read in front of the text, and something is left. -/
def TypeInFront (text : List Char) : Prop :=
  ∃ nodes stop, Reads (.once (Expr.parenthesised (.rule .typeName))) (.start text)
    (some (nodes, stop)) ∧ stop.rest ≠ []

/-- A compound literal, whatever is applied to it, has a type in front. -/
theorem typeInFront_of_compound {text : List Char} {nodes : List Node} {stop : Cursor}
    (hprimary : Reads (.once (.rule .primaryExpression)) (.start text) none)
    (h : Reads (.once (.rule .postfixExpression)) (.start text) (some (nodes, stop))) :
    TypeInFront text := by
  cases h with
  | rule h =>
    cases h with
    | seq hfirst _ =>
      cases hfirst with
      | first h => cases h.unique hprimary
      | second _ h =>
        cases h with
        | seq htype hbraces =>
          refine ⟨_, _, htype, fun hend => ?_⟩
          have hlength := hbraces.length_lt rfl rfl
          rw [skipGap_rest, hend, List.drop_nil] at hlength
          exact absurd hlength (Nat.not_lt_zero _)

theorem exists_reads_parenthesised (r : Rule) (here : Cursor) :
    ∃ result, Reads (.once (Expr.parenthesised (.rule r))) here result := by
  cases hopen : (Token.punctuator .leftParen).width? here.rest with
  | none => exact ⟨_, .noFirst (.noFirst (.noToken hopen))⟩
  | some n =>
    obtain ⟨result, hinner⟩ := exists_reads r (skipGap (here.advance n))
    cases result with
    | none => exact ⟨_, .noFirst (.noSecond (.token hopen) hinner)⟩
    | some result =>
      have hfirst := Reads.seq (.token hopen) hinner
      cases hclose : (Token.punctuator .rightParen).width? (skipGap result.2).rest with
      | none => exact ⟨_, .noSecond hfirst (.noToken hclose)⟩
      | some m => exact ⟨_, .seq hfirst (.token hclose)⟩

/-! ## Behind the word -/

section
variable {u : List Char} {nodes : List Node} {stop : Cursor}

lemma reads_sizeof (u : List Char) :
    Reads (.once (Expr.word .kwSizeof)) ⟨0, "sizeof".toList ++ ' ' :: u⟩
      (some ([.leaf (.keyword .kwSizeof) 0 "sizeof".toList], ⟨6, ' ' :: u⟩)) :=
  .token (n := 6) rfl

lemma reads_none_sign (u : List Char) :
    Reads (.once (.seq (.alt (Expr.punct .plusPlus) (Expr.punct .minusMinus))
      (.rule .unaryExpression))) ⟨0, "sizeof".toList ++ ' ' :: u⟩ none :=
  reads_none_of_lone 1
    (lone_of_isWord (t := .keyword .kwSizeof) (n := 6) rfl rfl fun _ _ => rfl) rfl

/-- A type in parentheses is the operand. -/
theorem reads_sizeof_type (hgap : gapWidth u = 0)
    (h : Reads (.once (Expr.parenthesised (.rule .typeName))) ⟨7, u⟩ (some (nodes, stop))) :
    ∃ root, Reads (.once (.rule .unaryExpression)) ⟨0, "sizeof".toList ++ ' ' :: u⟩
      (some ([root], stop)) := by
  have hword := Reads.first (f := Expr.word .kwAlignof) (reads_sizeof u)
  have hwhole := Reads.seq hword (by rw [skipGap_blank hgap]; exact h)
  exact ⟨_, .rule (.first (.first (.first (.second (reads_none_sign u) hwhole))))⟩

/-- Where no type in parentheses is read, an expression is the operand. -/
theorem reads_sizeof_operand (hgap : gapWidth u = 0)
    (hno : Reads (.once (Expr.parenthesised (.rule .typeName))) ⟨7, u⟩ none)
    (h : Reads (.once (.rule .unaryExpression)) ⟨7, u⟩ (some (nodes, stop))) :
    ∃ root, Reads (.once (.rule .unaryExpression)) ⟨0, "sizeof".toList ++ ' ' :: u⟩
      (some ([root], stop)) := by
  have hword := Reads.first (f := Expr.word .kwAlignof) (reads_sizeof u)
  have htype := Reads.noSecond hword (by rw [skipGap_blank hgap]; exact hno)
  have hwhole := Reads.seq (reads_sizeof u) (by rw [skipGap_blank hgap]; exact h)
  exact ⟨_, .rule (.first (.first (.second (.second (reads_none_sign u) htype) hwhole)))⟩

end

/-- `sizeof` applies to a unary expression if no type in parentheses is read in front of it:
such a type is the operand, and the rest of the expression is left. -/
theorem sizeof_accepts_iff {u : List Char} {operand : Node}
    (hu : Matches .unaryExpression u operand) (hgap : gapWidth u = 0) :
    (∃ root, Matches .unaryExpression ("sizeof ".toList ++ u) root) ↔ ¬ TypeInFront u := by
  have htext : "sizeof ".toList ++ u = "sizeof".toList ++ ' ' :: u := by simp
  rw [htext]
  constructor
  · rintro ⟨root, hroot⟩ ⟨nodes, stop, htype, hleft⟩
    cases htype.elsewhere ⟨7, u⟩ rfl with
    | some htype' hstop =>
      obtain ⟨whole, hwhole⟩ := reads_sizeof_type hgap htype'
      cases hwhole.unique (matches_iff.1 hroot)
      exact hleft hstop.symm
  · intro hno
    obtain ⟨result, htype⟩ := exists_reads_parenthesised .typeName (.start u)
    cases htype.elsewhere ⟨7, u⟩ rfl with
    | none htype' =>
      cases (matches_iff.1 hu).elsewhere ⟨7, u⟩ rfl with
      | some hoperand hend =>
        obtain ⟨whole, hwhole⟩ := reads_sizeof_operand hgap htype' hoperand
        exact ⟨whole, hwhole.matches_of_end hend⟩
    | @some nodes stop _ _ htype' hstop =>
      have hend : stop.rest = [] := by
        by_contra hleft
        exact hno ⟨nodes, stop, htype, hleft⟩
      obtain ⟨whole, hwhole⟩ := reads_sizeof_type hgap htype'
      exact ⟨whole, hwhole.matches_of_end (hstop.trans hend)⟩

theorem sizeof_accepts_element : ∃ operand, Matches .unaryExpression "a[0]".toList operand ∧
    gapWidth "a[0]".toList = 0 ∧
    ∃ root, Matches .unaryExpression ("sizeof ".toList ++ "a[0]".toList) root := by
  obtain ⟨operand, hu, hu'⟩ := exists_trimmed .unaryExpression "a[0]".toList
    (by decide +kernel) (by decide +kernel)
  refine ⟨operand, hu, hu'.first, (sizeof_accepts_iff hu hu'.first).2 ?_⟩
  rintro ⟨nodes, stop, htype, -⟩
  have hnone : (Token.punctuator .leftParen).width? "a[0]".toList = none := by decide
  cases htype.unique (.noFirst (.noFirst (.noToken hnone)))

/-- A compound literal is cut off behind its type. -/
theorem compound_literal_cut_off : ∃ operand,
    Matches .unaryExpression "(int)\x7b1\x7d".toList operand ∧
    Trimmed "(int)\x7b1\x7d".toList operand ∧
    ∀ root, ¬ Matches .unaryExpression ("sizeof ".toList ++ "(int)\x7b1\x7d".toList) root := by
  obtain ⟨operand, hu, hu'⟩ := exists_trimmed .unaryExpression "(int)\x7b1\x7d".toList
    (by decide +kernel) (by decide +kernel)
  refine ⟨operand, hu, hu', fun root hroot => ?_⟩
  have hstop : root.stop = 12 := hroot.eq_of_map (f := Node.stop) (by decide +kernel)
  rw [hroot.stop] at hstop
  exact absurd hstop (by decide)

end CTree.Parse
