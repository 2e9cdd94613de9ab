import CTree.Proofs.FixtureFiles
import Mathlib.Data.List.Lex

/-!
# The order of paths

Paths are ordered by their components, and names by their characters. Both orders are
lexicographic ones over a strict total order, so paths that differ in their components are
sorted in one way. Two paths below one folder have the same components only if they are
joined from the same names.
-/
namespace CTree.Store

/-! ## Lists -/

section listBefore
variable {α : Type} [DecidableEq α] {before : α → α → Bool} {as bs cs : List α}

theorem listBefore_cons (a b : α) (as bs : List α) :
    listBefore before (a :: as) (b :: bs) =
      if a = b then listBefore before as bs else before a b := rfl

/-- The order of lists is the lexicographic one. -/
theorem listBefore_iff_lex (hirrefl : ∀ a, before a a = false) :
    listBefore before as bs = true ↔ List.Lex (fun a b => before a b = true) as bs := by
  induction as generalizing bs with
  | nil => cases bs <;> simp [listBefore]
  | cons a as ih =>
    cases bs with
    | nil => simp [listBefore]
    | cons b bs =>
      rw [listBefore_cons, List.cons_lex_cons_iff]
      split_ifs with hab
      · simp [hab, hirrefl, ih]
      · simp [hab]

theorem listBefore_irrefl (hirrefl : ∀ a, before a a = false) (as : List α) :
    listBefore before as as = false := by
  rw [← Bool.not_eq_true, listBefore_iff_lex hirrefl]
  exact List.lex_irrefl (by simp [hirrefl]) as

theorem listBefore_trans (hirrefl : ∀ a, before a a = false)
    (htrans : ∀ a b c, before a b = true → before b c = true → before a c = true)
    (h : listBefore before as bs = true) (h' : listBefore before bs cs = true) :
    listBefore before as cs = true := by
  rw [listBefore_iff_lex hirrefl] at h h' ⊢
  exact List.lex_trans (htrans _ _ _) h h'

theorem listBefore_trichotomy (hirrefl : ∀ a, before a a = false)
    (htrichotomy : ∀ a b, a = b ∨ before a b = true ∨ before b a = true) (as bs : List α) :
    as = bs ∨ listBefore before as bs = true ∨ listBefore before bs as = true := by
  have : Std.Trichotomous fun a b => before a b = true :=
    ⟨fun a b hab hba => (htrichotomy a b).resolve_right fun h => h.elim hab hba⟩
  simp only [listBefore_iff_lex hirrefl]
  by_contra hnone
  simp only [not_or] at hnone
  exact hnone.1 (Std.Trichotomous.trichotomous as bs hnone.2.1 hnone.2.2)

end listBefore

/-! ## Components -/

namespace Component

theorem before_irrefl (a : Component) : a.before a = false := by
  cases a with
  | name s => exact listBefore_irrefl (by simp) s.toList
  | root | here | up => rfl

theorem before_trans (a b c : Component) (h : a.before b = true) (h' : b.before c = true) :
    a.before c = true := by
  cases a <;> cases b <;> cases c <;> simp_all [before, before.rank]
  exact listBefore_trans (by simp) (fun _ _ _ => by simpa using Nat.lt_trans) h h'

theorem before_trichotomy (a b : Component) :
    a = b ∨ a.before b = true ∨ b.before a = true := by
  cases a <;> cases b <;> simp [before, before.rank]
  next s t =>
  rw [← String.toList_inj]
  refine listBefore_trichotomy (by simp) (fun c d => ?_) s.toList t.toList
  rw [← Char.toNat_inj]
  simp only [decide_eq_true_eq]
  omega

end Component

namespace Path
open Component

variable {p q r : Path} {paths : List Path}

/-! ## Paths -/

theorem before_asymm (h : p.before q = true) : q.before p = false := by
  by_contra hback
  rw [Bool.not_eq_false] at hback
  have := listBefore_trans before_irrefl before_trans h hback
  rw [listBefore_irrefl before_irrefl] at this
  cases this

theorem before_of_ne (h : p.components ≠ q.components) (hback : q.before p = false) :
    p.before q = true := by
  rcases listBefore_trichotomy before_irrefl before_trichotomy p.components q.components with heq | hbefore | hbehind
  · exact absurd heq h
  · exact hbefore
  · cases hback.symm.trans hbehind

/-- Paths that do not come behind others form a chain. -/
theorem not_before_trans (h : q.before p = false) (h' : r.before q = false) :
    r.before p = false := by
  by_contra hback
  rw [Bool.not_eq_false] at hback
  by_cases heq : p.components = q.components
  · rw [before, heq] at hback
    cases h'.symm.trans hback
  · cases h'.symm.trans (listBefore_trans before_irrefl before_trans hback (before_of_ne heq h))

/-- Sorted paths with different components increase. -/
theorem pairwise_mergeSort
    (h : paths.Pairwise fun p q => p.components ≠ q.components) :
    (paths.mergeSort fun p q => !q.before p).Pairwise fun p q => p.before q = true := by
  have hsorted := @List.pairwise_mergeSort Path (fun p q => !q.before p)
    (fun p q r h h' => by simpa using not_before_trans (by simpa using h) (by simpa using h'))
    (fun p q => by
      cases hpq : p.before q with
      | false => simp
      | true => simp [before_asymm hpq]) paths
  have hdiffer : (paths.mergeSort fun p q => !q.before p).Pairwise
      fun p q => p.components ≠ q.components :=
    (List.Perm.pairwise_iff Ne.symm (List.mergeSort_perm _ _)).2 h
  exact hsorted.imp₂ (fun p q hback hne => before_of_ne hne (by simpa using hback)) hdiffer

theorem components_ne_of_before (h : p.before q = true) : p.components ≠ q.components := by
  intro heq
  rw [before, heq, listBefore_irrefl before_irrefl] at h
  cases h

theorem nodup_of_increasing (h : paths.Pairwise fun p q => p.before q = true) : paths.Nodup :=
  h.imp fun hbefore heq => components_ne_of_before hbefore (congrArg components heq)

/-- Increasing paths are known by which they are. -/
theorem eq_of_increasing {others : List Path}
    (h : paths.Pairwise fun p q => p.before q = true)
    (h' : others.Pairwise fun p q => p.before q = true)
    (hmem : ∀ p, p ∈ paths ↔ p ∈ others) : paths = others := by
  refine List.Perm.eq_of_pairwise (fun p q _ _ hpq hqp => ?_) h h'
    ((List.perm_ext_iff_of_nodup (nodup_of_increasing h) (nodup_of_increasing h')).2 hmem)
  cases hqp.symm.trans (before_asymm hpq)

/-! ## Joined paths -/

theorem join_ne_empty (root : Path) {name : String} (hname : IsName name) :
    (root.join name).text ≠ "" := by
  rw [join]
  split_ifs <;> simp [hname.2.1]

/-- Joining adds one step. -/
theorem components_join {root : Path} {name : String} (hroot : root.text ≠ "")
    (hname : IsName name) : (root.join name).components = root.components ++ [.name name] := by
  obtain ⟨front, hpieces, hfront⟩ := pieces_join hroot hname.1
  have habsolute : root.isAbsolute = decide (front.head? = some []) := by
    rw [← isAbsolute_join hroot name, isAbsolute_eq hpieces]
  have hhead : root.pieces.head? = some ['.'] ↔ front.head? = some ['.'] := by
    rcases hfront with rfl | hfront
    · rfl
    · rw [hfront]
      cases front <;> simp
  have hsteps : root.pieces.filterMap Component.ofPiece? = front.filterMap Component.ofPiece? := by
    rcases hfront with rfl | hfront
    · rfl
    · simp [hfront, Component.ofPiece?]
  rw [components_eq_name hpieces hname]
  simp only [components, steps, habsolute, hhead, hsteps, decide_eq_true_eq]

theorem components_foldl_join {root : Path} {names : List String} (hroot : root.text ≠ "")
    (hnames : ∀ name ∈ names, IsName name) :
    (names.foldl join root).components = root.components ++ names.map .name := by
  induction names generalizing root with
  | nil => simp
  | cons name names ih =>
    obtain ⟨hname, hnames⟩ := List.forall_mem_cons.1 hnames
    rw [List.foldl_cons, ih (join_ne_empty root hname) hnames, components_join hroot hname,
      List.append_assoc]
    rfl

/-- Which names were joined can be told from the steps. -/
theorem names_eq_of_components {root : Path} {names others : List String} (hroot : root.text ≠ "")
    (hnames : ∀ name ∈ names, IsName name) (hothers : ∀ name ∈ others, IsName name)
    (h : (names.foldl join root).components = (others.foldl join root).components) :
    names = others := by
  rw [components_foldl_join hroot hnames, components_foldl_join hroot hothers] at h
  exact List.map_injective_iff.2 (fun _ _ => Component.name.inj) (List.append_cancel_left h)

end Path
end CTree.Store
