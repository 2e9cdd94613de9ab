import CTree.Proofs.PatternWidth

/-!
# How far a pattern sees

What a pattern takes may depend on what follows. A pattern within a class of
characters sees nothing behind a character outside of it, and one that begins with
a class fails in front of other characters. A pattern that can be cut takes the
same from a text that ends where the match ends; this holds of patterns without
look-ahead if no part of them goes on too far for the next one to match.
-/
namespace CTree.Lexical.Pattern

variable {p q : Pattern} {K : Char → Bool} {u v : List Char} {n : Nat}

section Decide
variable (f : Char → Prop) [DecidablePred f]

/-- What all characters of a text are is decided by going over the text, not over all
characters there are. -/
instance (priority := 2000) decidableForallText (s : List Char) : Decidable (∀ c ∈ s, f c) :=
  List.decidableBAll f s

instance (priority := 2000) decidableForallHead (o : Option Char) : Decidable (∀ c ∈ o, f c) :=
  Option.decidableForallMem o

end Decide

/-! ## Patterns within a class -/

/-- Everything that the pattern looks for is made of characters of the class. -/
def Within (K : Char → Bool) : Pattern → Prop
  | word text => ∀ c ∈ text, K c = true
  | one f => ∀ c, f c = true → K c = true
  | seq p q | alt p q => p.Within K ∧ q.Within K
  | many p => Consuming p ∧ p.Within K
  | absent p => p.Within K

/-- The text does not begin with a character of the class. -/
def Outside (K : Char → Bool) (s : List Char) : Prop := ∀ c ∈ s.head?, K c = false

theorem outside_nil (K : Char → Bool) : Outside K [] := by simp [Outside]

theorem outside_cons {c : Char} {s : List Char} : Outside K (c :: s) ↔ K c = false := by
  simp [Outside]

/-- The beginning of a text stays when the text further on changes. -/
theorem Outside.change {a w : List Char} (h : Outside K (a ++ v))
    (hw : Outside K w) : Outside K (a ++ w) := by
  cases a with
  | nil => exact hw
  | cons c a => exact outside_cons.2 (outside_cons.1 h)

/-- A word of the class ends in front of a character outside of it. -/
lemma prefix_append_iff {text : List Char} (htext : ∀ c ∈ text, K c = true)
    (hv : Outside K v) (u : List Char) : text <+: u ++ v ↔ text <+: u := by
  constructor
  · induction text generalizing u with
    | nil => exact fun _ => List.nil_prefix
    | cons c text ih =>
      intro h
      cases u with
      | nil =>
        obtain ⟨r, hr⟩ := h
        have hc := htext c List.mem_cons_self
        rw [List.nil_append] at hr
        rw [← hr, List.cons_append, outside_cons, hc] at hv
        cases hv
      | cons d u =>
        rw [List.cons_append, List.cons_prefix_cons] at h
        rw [List.cons_prefix_cons]
        exact ⟨h.1, ih (fun c hc => htext c (List.mem_cons_of_mem _ hc)) u h.2⟩
  · exact fun h => h.trans (List.prefix_append u v)

/-- What follows behind a character outside of the class is not seen. -/
theorem Within.width?_append (h : p.Within K) (hv : Outside K v) (u : List Char) :
    p.width? (u ++ v) = p.width? u := by
  induction p generalizing u with
  | word text =>
    have hiff := prefix_append_iff h hv u
    rw [← List.isPrefixOf_iff_prefix, ← List.isPrefixOf_iff_prefix, ← Bool.eq_iff_iff] at hiff
    rw [width?_word, width?_word, hiff]
  | one f =>
    cases u with
    | cons c u => rfl
    | nil =>
      cases v with
      | nil => rfl
      | cons c v =>
        have hc : f c = false := by
          by_contra hf
          have hK := h c (by simpa using hf)
          rw [outside_cons, hK] at hv
          cases hv
        simp [hc]
  | seq p q ihp ihq =>
    rw [width?_seq, width?_seq, ihp h.1]
    cases hp : p.width? u with
    | none => rfl
    | some n =>
      rw [Option.bind_some, Option.bind_some,
        List.drop_append_of_le_length (width?_le_length hp), ihq h.2]
  | alt p q ihp ihq => rw [width?_alt, width?_alt, ihp h.1, ihq h.2]
  | absent p ih => rw [width?_absent, width?_absent, ih h]
  | many p ih =>
    induction hm : u.length using Nat.strongRecOn generalizing u with
    | ind m ihm =>
      have hbody := ih h.2 u
      cases hp : p.width? u with
      | none => rw [width?_many_of_none hp, width?_many_of_none (hbody.trans hp)]
      | some n =>
        have hle := width?_le_length hp
        have hpos := h.1 u n hp
        rw [width?_many_of_some h.1 hp, width?_many_of_some h.1 (hbody.trans hp),
          List.drop_append_of_le_length hle, ihm _ (by rw [List.length_drop]; omega) _ rfl]

theorem Within.firstOf {ps : List Pattern} (h : ∀ p ∈ ps, p.Within K) :
    (Pattern.firstOf ps).Within K := by
  induction ps with
  | nil => simp [Pattern.firstOf, Within, nothing]
  | cons p ps ih =>
    cases ps with
    | nil => exact h p List.mem_cons_self
    | cons q ps =>
      exact ⟨h p List.mem_cons_self, ih fun r hr => h r (List.mem_cons_of_mem _ hr)⟩

theorem within_text {t : String} (h : ∀ c ∈ t.toList, K c = true) : (text t).Within K := h

theorem within_oneOf {t : String} (h : ∀ c ∈ t.toList, K c = true) : (oneOf t).Within K :=
  fun c hc => h c (List.contains_iff_mem.1 hc)

theorem within_nothing (K : Char → Bool) : nothing.Within K := by simp [nothing, Within]

/-- What the pattern takes is of the class. -/
theorem Within.forall_mem_take {s : List Char} (h : p.Within K) (hn : p.width? s = some n) :
    ∀ c ∈ s.take n, K c = true := by
  induction p generalizing s n with
  | word text =>
    obtain ⟨⟨r, rfl⟩, rfl⟩ := width?_word_eq_some.1 hn
    rw [List.take_left]
    exact h
  | one f =>
    obtain ⟨c, r, rfl, hf, rfl⟩ := width?_one_eq_some.1 hn
    intro d hd
    obtain rfl : d = c := by simpa using hd
    exact h d hf
  | seq p q ihp ihq =>
    obtain ⟨a, b, ha, hb, rfl⟩ := width?_seq_eq_some.1 hn
    rw [List.take_add]
    intro c hc
    exact (List.mem_append.1 hc).elim (ihp h.1 ha c) (ihq h.2 hb c)
  | alt p q ihp ihq =>
    rcases width?_alt_eq_some.1 hn with hn | ⟨-, hn⟩
    · exact ihp h.1 hn
    · exact ihq h.2 hn
  | absent p =>
    obtain ⟨-, rfl⟩ := width?_absent_eq_some.1 hn
    simp
  | many p ih =>
    refine many_induction (motive := fun s n => ∀ c ∈ s.take n, K c = true) h.1 ?_ ?_ hn
    · simp
    · intro s a b ha _ ihb c hc
      rw [List.take_add] at hc
      exact (List.mem_append.1 hc).elim (ih h.2 ha c) (ihb c)

/-! ## Patterns that begin with a class -/

/-- A match that takes something begins with a character of the class. -/
def HeadIn (K : Char → Bool) : Pattern → Prop
  | word text => ∀ c ∈ text.head?, K c = true
  | one f => ∀ c, f c = true → K c = true
  | seq p q => p.HeadIn K ∧ (p.takesSome = true ∨ q.HeadIn K)
  | alt p q => p.HeadIn K ∧ q.HeadIn K
  | many p => Consuming p ∧ p.HeadIn K
  | absent _ => True

theorem HeadIn.exists_head {s : List Char} (h : p.HeadIn K) (hn : p.width? s = some n)
    (hpos : 0 < n) : ∃ c r, s = c :: r ∧ K c = true := by
  induction p generalizing s n with
  | word text =>
    obtain ⟨⟨r, rfl⟩, rfl⟩ := width?_word_eq_some.1 hn
    cases text with
    | nil => simp at hpos
    | cons c text => exact ⟨c, text ++ r, rfl, h c rfl⟩
  | one f =>
    obtain ⟨c, r, rfl, hf, -⟩ := width?_one_eq_some.1 hn
    exact ⟨c, r, rfl, h c hf⟩
  | seq p q ihp ihq =>
    obtain ⟨a, b, ha, hb, rfl⟩ := width?_seq_eq_some.1 hn
    rcases Nat.eq_zero_or_pos a with rfl | ha'
    · rcases h.2 with hsome | hq
      · exact absurd (consuming_of_takesSome hsome s 0 ha) (Nat.lt_irrefl 0)
      · exact ihq hq hb (by omega)
    · exact ihp h.1 ha ha'
  | alt p q ihp ihq =>
    rcases width?_alt_eq_some.1 hn with hn | ⟨-, hn⟩
    · exact ihp h.1 hn hpos
    · exact ihq h.2 hn hpos
  | many p ih =>
    cases hp : p.width? s with
    | none =>
      rw [width?_many_of_none hp] at hn
      obtain rfl := Option.some.inj hn
      exact absurd hpos (Nat.lt_irrefl 0)
    | some a => exact ih h.2 hp (h.1 s a hp)
  | absent p =>
    obtain ⟨-, rfl⟩ := width?_absent_eq_some.1 hn
    exact absurd hpos (Nat.lt_irrefl 0)

/-- A pattern that takes something fails in front of a character it cannot begin with. -/
theorem HeadIn.width?_eq_none {s : List Char} (h : p.HeadIn K) (hc : Consuming p)
    (hs : Outside K s) : p.width? s = none := by
  cases hn : p.width? s with
  | none => rfl
  | some n =>
    obtain ⟨c, r, rfl, hK⟩ := h.exists_head hn (hc s n hn)
    rw [outside_cons, hK] at hs
    cases hs

theorem HeadIn.firstOf {ps : List Pattern} (h : ∀ p ∈ ps, p.HeadIn K) :
    (Pattern.firstOf ps).HeadIn K := by
  induction ps with
  | nil => simp [Pattern.firstOf, HeadIn]
  | cons p ps ih =>
    cases ps with
    | nil => exact h p List.mem_cons_self
    | cons q ps =>
      exact ⟨h p List.mem_cons_self, ih fun r hr => h r (List.mem_cons_of_mem _ hr)⟩

theorem headIn_text {t : String} (h : ∀ c ∈ t.toList.head?, K c = true) : (text t).HeadIn K := h

theorem headIn_oneOf {t : String} (h : ∀ c ∈ t.toList, K c = true) : (oneOf t).HeadIn K :=
  fun c hc => h c (List.contains_iff_mem.1 hc)

theorem HeadIn.opt (h : p.HeadIn K) : (Pattern.opt p).HeadIn K := ⟨h, by simp [nothing, HeadIn]⟩

/-! ## Patterns that can be cut -/

/-- The text behind a match may be dropped, and a text on which the pattern fails may
be cut anywhere. -/
structure Cuts (p : Pattern) : Prop where
  keep : ∀ {u v n}, p.width? (u ++ v) = some n → n ≤ u.length → p.width? u = some n
  fail : ∀ {u v}, p.width? (u ++ v) = none → p.width? u = none

/-- Where a match goes on behind the place of a cut, all of the text before it is taken. -/
def Fills (p : Pattern) : Prop :=
  ∀ u v n, u ≠ [] → p.width? (u ++ v) = some n → u.length < n → p.width? u = some u.length

/-- The pattern never fails. -/
def Total (p : Pattern) : Prop := ∀ s, p.width? s ≠ none

theorem cuts_word (text : List Char) : Cuts (word text) where
  keep := by
    intro u v n h hn
    obtain ⟨hpre, rfl⟩ := width?_word_eq_some.1 h
    exact width?_word_eq_some.2 ⟨List.prefix_of_prefix_length_le hpre
      (List.prefix_append u v) hn, rfl⟩
  fail := by
    intro u v h
    rw [width?_word_eq_none] at h ⊢
    exact fun hpre => h (hpre.trans (List.prefix_append u v))

theorem cuts_one (f : Char → Bool) : Cuts (one f) where
  keep := by
    intro u v n h hn
    obtain ⟨c, r, hs, hf, rfl⟩ := width?_one_eq_some.1 h
    cases u with
    | nil => simp at hn
    | cons d u =>
      obtain ⟨rfl, -⟩ : d = c ∧ u ++ v = r := by simpa using hs
      simp [hf]
  fail := by
    intro u v h
    cases u with
    | nil => rfl
    | cons d u => simpa using h

theorem cuts_many_one (f : Char → Bool) : Cuts (many (one f)) where
  keep := by
    intro u v n h hn
    rw [width?_many_one, Option.some.injEq] at h ⊢
    rw [List.takeWhile_append] at h
    split at h
    · rename_i hall
      rw [List.length_append] at h
      omega
    · exact h
  fail := by
    intro u v h
    simp at h

theorem total_many (p : Pattern) : Total (many p) := fun _ h => by cases h

theorem total_opt (p : Pattern) : Total (opt p) := fun s h => by simp [width?_opt] at h

theorem Cuts.alt (hp : Cuts p) (hq : Cuts q) : Cuts (alt p q) where
  keep := by
    intro u v n h hn
    rw [width?_alt_eq_some] at h ⊢
    rcases h with h | ⟨hnone, h⟩
    · exact .inl (hp.keep h hn)
    · exact .inr ⟨hp.fail hnone, hq.keep h hn⟩
  fail := by
    intro u v h
    rw [width?_alt_eq_none] at h ⊢
    exact ⟨hp.fail h.1, hq.fail h.2⟩

theorem Cuts.opt (hp : Cuts p) : Cuts (opt p) := hp.alt (cuts_word [])

lemma keep_seq (hp : ∀ {u v n}, p.width? (u ++ v) = some n → n ≤ u.length → p.width? u = some n)
    (hq : ∀ {u v n}, q.width? (u ++ v) = some n → n ≤ u.length → q.width? u = some n)
    (h : (seq p q).width? (u ++ v) = some n) (hn : n ≤ u.length) :
    (seq p q).width? u = some n := by
  obtain ⟨a, b, ha, hb, rfl⟩ := width?_seq_eq_some.1 h
  rw [List.drop_append_of_le_length (by omega)] at hb
  exact width?_seq_eq_some.2
    ⟨a, b, hp ha (by omega), hq hb (by rw [List.length_drop]; omega), rfl⟩

/-- A row can be cut if its first part leaves nothing to a second one that needs something. -/
theorem Cuts.seq (hp : Cuts p) (hfill : Fills p) (hq : Cuts q) (hc : Consuming q) :
    Cuts (seq p q) where
  keep := keep_seq hp.keep hq.keep
  fail := by
    intro u v h
    rw [width?_seq_eq_none] at h ⊢
    rcases h with h | ⟨a, ha, hb⟩
    · exact .inl (hp.fail h)
    · rcases Nat.lt_or_ge u.length a with hlt | hle
      · cases hpu : p.width? u with
        | none => exact .inl rfl
        | some b =>
          have hdrop : u.drop b = [] := by
            by_cases hu : u = []
            · simp [hu]
            · rw [hfill u v a hu ha hlt] at hpu
              obtain rfl := Option.some.inj hpu
              exact List.drop_length
          exact .inr ⟨b, rfl, by rw [hdrop]; exact hc.width?_nil⟩
      · rw [List.drop_append_of_le_length hle] at hb
        exact .inr ⟨a, hp.keep ha hle, hq.fail hb⟩

theorem Cuts.seq_total (hp : Cuts p) (hq : Cuts q) (ht : Total q) : Cuts (Pattern.seq p q) where
  keep := keep_seq hp.keep hq.keep
  fail := by
    intro u v h
    rw [width?_seq_eq_none] at h ⊢
    rcases h with h | ⟨a, -, hb⟩
    · exact .inl (hp.fail h)
    · exact absurd hb (ht _)

theorem fills_of_width_le_one (h : ∀ s n, p.width? s = some n → n ≤ 1) : Fills p := by
  intro u v n hu hn hlt
  have hpos := List.length_pos_iff.2 hu
  have hle := h _ _ hn
  omega

theorem fills_one (f : Char → Bool) : Fills (one f) :=
  fills_of_width_le_one fun s n h => by
    obtain ⟨-, -, -, -, rfl⟩ := width?_one_eq_some.1 h
    exact Nat.le_refl 1

theorem fills_word_singleton (c : Char) : Fills (word [c]) :=
  fills_of_width_le_one fun s n h => by
    obtain ⟨-, rfl⟩ := width?_word_eq_some.1 h
    exact Nat.le_refl 1

theorem Fills.opt (hp : Fills p) : Fills (opt p) := by
  intro u v n hu hn hlt
  rw [Pattern.opt] at hn ⊢
  rcases width?_alt_eq_some.1 hn with h | ⟨-, h⟩
  · exact width?_alt_of_some (hp u v n hu h hlt)
  · obtain ⟨-, rfl⟩ := width?_word_eq_some.1 h
    simp at hlt

theorem cuts_oneOrMore_one (f : Char → Bool) : Cuts (oneOrMore (one f)) :=
  (cuts_one f).seq_total (cuts_many_one f) (total_many _)

theorem fills_oneOrMore_one (f : Char → Bool) : Fills (oneOrMore (one f)) := by
  intro u v n hu hn hlt
  have hpos := List.length_pos_iff.2 hu
  rw [width?_oneOrMore_one] at hn ⊢
  split at hn
  · cases hn
  · obtain rfl := Option.some.inj hn
    have hall : (u.takeWhile f).length = u.length := by
      rw [List.takeWhile_append] at hlt
      split at hlt
      · assumption
      · have hle := (List.takeWhile_prefix (l := u) f).length_le
        omega
    rw [hall, if_neg (by omega)]

lemma consuming_oneOrMore_one (f : Char → Bool) : Consuming (oneOrMore (one f)) :=
  consuming_of_takesSome rfl

end CTree.Lexical.Pattern
