import CTree.Lexical.Pattern
import Mathlib.Data.List.TakeWhile
import Mathlib.Tactic

/-!
# What a pattern takes

A pattern never takes more than there is. A repetition stops where its body
fails, as long as the body takes a character each time: the clock of
`repeatWidth` is then long enough, and `many_induction` is the induction over the
turns of the loop that the later modules use.
-/
namespace CTree.Lexical.Pattern

variable {p q : Pattern} {s t : List Char} {n : Nat}

/-! ## One equation for each constructor -/

theorem width?_word (text s : List Char) :
    (word text).width? s = if text.isPrefixOf s then some text.length else none := rfl

theorem width?_seq (p q : Pattern) (s : List Char) :
    (seq p q).width? s = (p.width? s).bind fun n => (q.width? (s.drop n)).map (n + ·) := by
  rw [width?]
  cases p.width? s <;> rfl

theorem width?_alt (p q : Pattern) (s : List Char) :
    (alt p q).width? s = (p.width? s).or (q.width? s) := by
  rw [width?]
  cases p.width? s <;> rfl

theorem width?_many (p : Pattern) (s : List Char) :
    (many p).width? s = some (repeatWidth p.width? s s 0) := rfl

theorem width?_absent (p : Pattern) (s : List Char) :
    (absent p).width? s = if (p.width? s).isSome then none else some 0 := rfl

theorem repeatWidth_nil (w : List Char → Option Nat) (s : List Char) (total : Nat) :
    repeatWidth w [] s total = total := rfl

theorem repeatWidth_of_none {w : List Char → Option Nat} {s : List Char} (h : w s = none)
    (c : Char) (clock : List Char) (total : Nat) :
    repeatWidth w (c :: clock) s total = total := by
  rw [repeatWidth, h]

theorem repeatWidth_of_some {w : List Char → Option Nat} {s : List Char} {n : Nat}
    (h : w s = some n) (c : Char) (clock : List Char) (total : Nat) :
    repeatWidth w (c :: clock) s total = repeatWidth w clock (s.drop n) (total + n) := by
  rw [repeatWidth, h]

theorem width?_word_eq_some {text : List Char} :
    (word text).width? s = some n ↔ text <+: s ∧ n = text.length := by
  rw [← List.isPrefixOf_iff_prefix]
  by_cases h : text.isPrefixOf s <;> simp [width?_word, h, eq_comm]

theorem width?_word_eq_none {text : List Char} :
    (word text).width? s = none ↔ ¬ text <+: s := by
  rw [← List.isPrefixOf_iff_prefix]
  simp [width?_word]

@[simp] theorem width?_one_nil (f : Char → Bool) : (one f).width? [] = none := rfl

@[simp] theorem width?_one_cons (f : Char → Bool) (c : Char) :
    (one f).width? (c :: s) = if f c then some 1 else none := rfl

theorem width?_one_eq_some {f : Char → Bool} :
    (one f).width? s = some n ↔ ∃ c r, s = c :: r ∧ f c = true ∧ n = 1 := by
  cases s with
  | nil => simp
  | cons c r =>
    by_cases h : f c
    · simpa [h] using eq_comm
    · simp [h]

theorem width?_seq_eq_some :
    (seq p q).width? s = some n ↔
      ∃ a b, p.width? s = some a ∧ q.width? (s.drop a) = some b ∧ n = a + b := by
  cases hp : p.width? s with
  | none => simp [width?_seq, hp]
  | some a => simp [width?_seq, hp, Option.map_eq_some_iff, eq_comm (a := n)]

theorem width?_seq_eq_none :
    (seq p q).width? s = none ↔
      p.width? s = none ∨ ∃ a, p.width? s = some a ∧ q.width? (s.drop a) = none := by
  cases hp : p.width? s <;> simp [width?_seq, hp]

theorem width?_alt_of_some (h : p.width? s = some n) : (alt p q).width? s = some n := by
  simp [width?_alt, h]

theorem width?_alt_of_none (h : p.width? s = none) : (alt p q).width? s = q.width? s := by
  simp [width?_alt, h]

theorem width?_alt_eq_some :
    (alt p q).width? s = some n ↔
      p.width? s = some n ∨ p.width? s = none ∧ q.width? s = some n := by
  cases hp : p.width? s <;> simp [width?_alt, hp]

theorem width?_alt_eq_none :
    (alt p q).width? s = none ↔ p.width? s = none ∧ q.width? s = none := by
  cases hp : p.width? s <;> simp [width?_alt, hp]

theorem width?_absent_eq_some :
    (absent p).width? s = some n ↔ p.width? s = none ∧ n = 0 := by
  cases hp : p.width? s <;> simp [width?_absent, hp, eq_comm]

@[simp] theorem width?_nothing : nothing.width? s = some 0 := by
  rw [nothing, width?_word]
  rfl

/-- An optional part that is not there takes nothing. -/
theorem width?_opt (p : Pattern) (s : List Char) :
    (opt p).width? s = some ((p.width? s).getD 0) := by
  cases hp : p.width? s <;> simp [opt, width?_alt, hp]

/-! ## Bounds -/

lemma repeatWidth_le {w : List Char → Option Nat} (hw : ∀ s n, w s = some n → n ≤ s.length)
    (clock s : List Char) (total : Nat) :
    repeatWidth w clock s total ≤ total + s.length := by
  induction clock generalizing s total with
  | nil => simp [repeatWidth_nil]
  | cons c clock ih =>
    cases hs : w s with
    | none => simp [repeatWidth_of_none hs]
    | some n =>
      have hn := hw s n hs
      have hrest := ih (s.drop n) (total + n)
      simp only [repeatWidth_of_some hs, List.length_drop] at hrest ⊢
      omega

theorem width?_le_length (h : p.width? s = some n) : n ≤ s.length := by
  induction p generalizing s n with
  | word text =>
    obtain ⟨hp, rfl⟩ := width?_word_eq_some.1 h
    exact hp.length_le
  | one f =>
    obtain ⟨c, r, rfl, -, rfl⟩ := width?_one_eq_some.1 h
    simp
  | seq p q ihp ihq =>
    obtain ⟨a, b, ha, hb, rfl⟩ := width?_seq_eq_some.1 h
    have hpa := ihp ha
    have hqb := ihq hb
    rw [List.length_drop] at hqb
    omega
  | alt p q ihp ihq =>
    rcases width?_alt_eq_some.1 h with h | ⟨-, h⟩
    · exact ihp h
    · exact ihq h
  | many p ih =>
    have hle := repeatWidth_le (fun s n => ih (s := s) (n := n)) s s 0
    simp only [width?_many, Option.some.injEq] at h
    omega
  | absent p =>
    obtain ⟨-, rfl⟩ := width?_absent_eq_some.1 h
    exact Nat.zero_le _

/-- What was taken is taken as a whole. -/
theorem width?_take_append_drop (h : p.width? s = some n) :
    p.width? (s.take n ++ s.drop n) = some (s.take n).length := by
  rw [List.take_append_drop, List.length_take, Nat.min_eq_left (width?_le_length h), h]

/-- Every match of the pattern takes a character. -/
def Consuming (p : Pattern) : Prop := ∀ s n, p.width? s = some n → 0 < n

/-- A test for `Consuming` that looks at the pattern alone. -/
def takesSome : Pattern → Bool
  | word text => !text.isEmpty
  | one _ => true
  | seq p q => p.takesSome || q.takesSome
  | alt p q => p.takesSome && q.takesSome
  | many _ | absent _ => false

theorem consuming_of_takesSome (h : p.takesSome = true) : Consuming p := by
  intro s n hn
  induction p generalizing s n with
  | word text =>
    obtain ⟨-, rfl⟩ := width?_word_eq_some.1 hn
    exact List.length_pos_iff.2 (by simpa [takesSome] using h)
  | one f =>
    obtain ⟨_, _, -, -, rfl⟩ := width?_one_eq_some.1 hn
    exact Nat.one_pos
  | seq p q ihp ihq =>
    obtain ⟨a, b, ha, hb, rfl⟩ := width?_seq_eq_some.1 hn
    simp only [takesSome, Bool.or_eq_true] at h
    rcases h with h | h
    · have := ihp h s a ha
      omega
    · have := ihq h (s.drop a) b hb
      omega
  | alt p q ihp ihq =>
    simp only [takesSome, Bool.and_eq_true] at h
    rcases width?_alt_eq_some.1 hn with hn | ⟨-, hn⟩
    · exact ihp h.1 s n hn
    · exact ihq h.2 s n hn
  | many p | absent p => simp [takesSome] at h

theorem Consuming.width?_nil (hp : Consuming p) : p.width? [] = none := by
  cases h : p.width? [] with
  | none => rfl
  | some n =>
    have hle := width?_le_length h
    have hpos := hp [] n h
    simp only [List.length_nil] at hle
    omega

/-! ## Repetition -/

/-- Any clock at least as long as the text will do. -/
lemma repeatWidth_clock (hp : Consuming p) (clock s : List Char) (total : Nat)
    (hc : s.length ≤ clock.length) :
    repeatWidth p.width? clock s total = total + repeatWidth p.width? s s 0 := by
  induction hm : s.length using Nat.strongRecOn generalizing clock s total with
  | ind m ih =>
    cases clock with
    | nil =>
      have hs : s = [] := List.eq_nil_of_length_eq_zero (by simpa using hc)
      subst hs
      simp [repeatWidth_nil]
    | cons c clock =>
      cases hs : p.width? s with
      | none => cases s <;> simp [repeatWidth_nil, repeatWidth_of_none hs]
      | some n =>
        have hn := width?_le_length hs
        have hpos := hp s n hs
        cases s with
        | nil => simp at hn; omega
        | cons a r =>
          simp only [List.length_cons] at hm hc hn
          have hlen : ((a :: r).drop n).length < m := by
            rw [List.length_drop, List.length_cons]
            omega
          have hleft := ih _ hlen clock _ (total + n) (by omega) rfl
          have hright := ih _ hlen r _ (0 + n) (by omega) rfl
          simp only [repeatWidth_of_some hs, hleft, hright]
          omega

theorem width?_many_of_none (h : p.width? s = none) : (many p).width? s = some 0 := by
  rw [width?_many]
  cases s <;> simp [repeatWidth_nil, repeatWidth_of_none h]

theorem width?_many_of_some (hp : Consuming p) (h : p.width? s = some n) :
    (many p).width? s = ((many p).width? (s.drop n)).map (n + ·) := by
  have hn := width?_le_length h
  have hpos := hp s n h
  cases s with
  | nil => simp at hn; omega
  | cons a r =>
    have hclock := repeatWidth_clock hp r ((a :: r).drop n) (0 + n)
      (by simp only [List.length_drop, List.length_cons]; omega)
    simp [width?_many, repeatWidth_of_some h] at hclock ⊢
    omega

/-- Induction over the turns of a repetition. -/
theorem many_induction {motive : List Char → Nat → Prop} (hp : Consuming p)
    (stop : ∀ s, p.width? s = none → motive s 0)
    (turn : ∀ s a b, p.width? s = some a → (many p).width? (s.drop a) = some b →
      motive (s.drop a) b → motive s (a + b))
    (h : (many p).width? s = some n) : motive s n := by
  induction hm : s.length using Nat.strongRecOn generalizing s n with
  | ind m ih =>
    cases hs : p.width? s with
    | none =>
      rw [width?_many_of_none hs, Option.some.injEq] at h
      subst h
      exact stop s hs
    | some a =>
      have ha := width?_le_length hs
      have hpos := hp s a hs
      rw [width?_many_of_some hp hs] at h
      obtain ⟨b, hb, rfl⟩ := Option.map_eq_some_iff.1 h
      exact turn s a b hs hb (ih _ (by rw [List.length_drop]; omega) hb rfl)

/-- A repetition stops where its body fails. -/
theorem width?_drop_many (hp : Consuming p) (h : (many p).width? s = some n) :
    p.width? (s.drop n) = none := by
  refine many_induction (motive := fun s n => p.width? (s.drop n) = none) hp ?_ ?_ h
  · intro s hs
    simpa using hs
  · intro s a b _ _ ih
    rwa [List.drop_drop] at ih

/-- Repeating a class of characters takes the longest run of them. -/
@[simp] theorem width?_many_one (f : Char → Bool) (s : List Char) :
    (many (one f)).width? s = some (s.takeWhile f).length := by
  induction s with
  | nil => rfl
  | cons c r ih =>
    have hone : Consuming (one f) := consuming_of_takesSome rfl
    by_cases hc : f c
    · rw [width?_many_of_some (n := 1) hone (by simp [hc])]
      simp [ih, hc, Nat.add_comm]
    · rw [width?_many_of_none (by simp [hc])]
      simp [hc]

/-- At least once is as often as possible, but not never. -/
theorem width?_oneOrMore_eq_some {s : List Char} (hc : Consuming p) :
    (oneOrMore p).width? s = some n ↔ (many p).width? s = some n ∧ 0 < n := by
  rw [oneOrMore, width?_seq]
  cases hp : p.width? s with
  | none =>
    rw [width?_many_of_none hp]
    simp
    omega
  | some a =>
    have hpos := hc s a hp
    rw [Option.bind_some, width?_many_of_some hc hp, and_iff_left_of_imp]
    intro h
    obtain ⟨b, -, rfl⟩ := Option.map_eq_some_iff.1 h
    omega

theorem width?_oneOrMore_one (f : Char → Bool) (s : List Char) :
    (oneOrMore (one f)).width? s =
      if (s.takeWhile f).length = 0 then none else some (s.takeWhile f).length := by
  rw [oneOrMore, width?_seq]
  cases s with
  | nil => rfl
  | cons c s =>
    by_cases hc : f c
    · simp [hc, Nat.add_comm]
    · simp [hc]

end CTree.Lexical.Pattern
