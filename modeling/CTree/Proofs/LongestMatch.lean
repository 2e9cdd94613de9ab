import CTree.Proofs.PatternLocality
import Mathlib.Computability.Language

/-!
# Longest matches

A pattern spells a language: a choice is a union, a row a product and a repetition a star.
What the pattern takes is a word of its language. As the pattern goes back on no choice, the
language may have a longer word at the head of the same text, or one where the pattern fails.
A pattern takes longest words if neither happens; a choice or a row of such patterns needs a
reason why its parts do not get in each other's way.
-/
namespace CTree.Lexical.Pattern
open scoped Computability

variable {p q : Pattern} {K : Char → Bool} {s u v : List Char} {n : Nat}

/-! ## The language of a pattern -/

/-- The texts that the pattern spells when every choice is free and a repetition may stop anywhere.
A look-ahead stands for the empty word, whatever it refuses. -/
def language : Pattern → Language Char
  | word text => {text}
  | one accepts => {u | ∃ c, accepts c = true ∧ u = [c]}
  | seq first second => first.language * second.language
  | alt first second => first.language + second.language
  | many body => body.language∗
  | absent _ => 1

/-- The word stands at the head of the text, and no longer word of the language does. -/
structure LongestAt (L : Language Char) (s u : List Char) : Prop where
  mem : u ∈ L
  begins : u <+: s
  longest : ∀ v ∈ L, v <+: s → v.length ≤ u.length

@[simp] theorem mem_language_word {text : List Char} : u ∈ (word text).language ↔ u = text := .rfl

@[simp] theorem mem_language_one {f : Char → Bool} :
    u ∈ (one f).language ↔ ∃ c, f c = true ∧ u = [c] := .rfl

theorem mem_language_seq :
    u ∈ (seq p q).language ↔ ∃ a ∈ p.language, ∃ b ∈ q.language, a ++ b = u := Language.mem_mul

theorem mem_language_alt : u ∈ (alt p q).language ↔ u ∈ p.language ∨ u ∈ q.language :=
  Language.mem_add _ _ _

theorem mem_language_opt : u ∈ (opt p).language ↔ u ∈ p.language ∨ u = [] := mem_language_alt

theorem append_mem_language_many (hu : u ∈ p.language) (hv : v ∈ (many p).language) :
    u ++ v ∈ (many p).language := by
  have hle : p.language * p.language∗ ≤ p.language∗ := mul_kstar_le_kstar
  exact hle (Language.append_mem_mul hu hv)

/-- Induction over the words of a repetition, one turn at a time from the front. -/
theorem language_many_induction {motive : List Char → Prop} (nil : motive [])
    (turn : ∀ u v, u ∈ p.language → u ≠ [] → v ∈ (many p).language → motive v → motive (u ++ v))
    (h : u ∈ (many p).language) : motive u := by
  obtain ⟨S, rfl, hS⟩ := Language.mem_kstar_iff_exists_nonempty.1 h
  clear h
  induction S with
  | nil => exact nil
  | cons w S ih =>
    have hmore := fun y hy => hS y (List.mem_cons_of_mem w hy)
    obtain ⟨hw, hne⟩ := hS w List.mem_cons_self
    exact turn w S.flatten hw hne (Language.join_mem_kstar fun y hy => (hmore y hy).1) (ih hmore)

theorem mem_language_many_one {f : Char → Bool} :
    u ∈ (many (one f)).language ↔ ∀ c ∈ u, f c = true := by
  constructor
  · refine fun h => language_many_induction (motive := fun u => ∀ c ∈ u, f c = true) ?_ ?_ h
    · simp
    · rintro _ v ⟨c, hc, rfl⟩ - - hv
      simpa using ⟨hc, hv⟩
  · intro h
    induction u with
    | nil => exact Language.nil_mem_kstar _
    | cons c u ih =>
      have hmore := ih fun d hd => h d (List.mem_cons_of_mem c hd)
      have hc : [c] ∈ (one f).language := ⟨c, h c List.mem_cons_self, rfl⟩
      exact append_mem_language_many hc hmore

theorem mem_language_oneOrMore :
    u ∈ (oneOrMore p).language ↔ u ∈ (many p).language ∧ (u ≠ [] ∨ [] ∈ p.language) := by
  constructor
  · intro h
    obtain ⟨a, ha, b, hb, rfl⟩ := mem_language_seq.1 h
    refine ⟨append_mem_language_many ha hb, ?_⟩
    by_cases hnil : a = []
    · exact .inr (hnil ▸ ha)
    · exact .inl (by simp [hnil])
  · rintro ⟨h, hne⟩
    have hwords := h
    rw [language, ← Language.one_add_self_mul_kstar_eq_kstar] at h
    rcases (Language.mem_add _ _ _).1 h with h | h
    · obtain rfl := (Language.mem_one u).1 h
      exact mem_language_seq.2 ⟨[], by simpa using hne, [], hwords, rfl⟩
    · exact h

/-- What a pattern takes is a word of its language. -/
theorem take_mem_language (h : p.width? s = some n) : s.take n ∈ p.language := by
  induction p generalizing s n with
  | word text =>
    obtain ⟨⟨r, rfl⟩, rfl⟩ := width?_word_eq_some.1 h
    rw [List.take_left]
    rfl
  | one f =>
    obtain ⟨c, r, rfl, hc, rfl⟩ := width?_one_eq_some.1 h
    exact ⟨c, hc, rfl⟩
  | seq p q ihp ihq =>
    obtain ⟨a, b, ha, hb, rfl⟩ := width?_seq_eq_some.1 h
    rw [List.take_add]
    exact mem_language_seq.2 ⟨_, ihp ha, _, ihq hb, rfl⟩
  | alt p q ihp ihq =>
    rw [mem_language_alt]
    exact (width?_alt_eq_some.1 h).imp ihp fun h => ihq h.2
  | absent p =>
    obtain ⟨-, rfl⟩ := width?_absent_eq_some.1 h
    exact (Language.mem_one _).2 rfl
  | many p ih =>
    -- The turns that the clock still allows take a word of the repetition.
    have hturns (clock s : List Char) (total : Nat) :
        ∃ k, repeatWidth p.width? clock s total = total + k ∧ s.take k ∈ (many p).language := by
      induction clock generalizing s total with
      | nil => exact ⟨0, rfl, Language.nil_mem_kstar _⟩
      | cons c clock ihc =>
        cases hs : p.width? s with
        | none => exact ⟨0, repeatWidth_of_none hs c clock total, Language.nil_mem_kstar _⟩
        | some a =>
          obtain ⟨k, hk, hmem⟩ := ihc (s.drop a) (total + a)
          refine ⟨a + k, by rw [repeatWidth_of_some hs, hk, Nat.add_assoc], ?_⟩
          rw [List.take_add]
          exact append_mem_language_many (ih hs) hmem
    obtain ⟨k, hk, hmem⟩ := hturns s s 0
    rw [width?_many, hk, Nat.zero_add] at h
    exact Option.some.inj h ▸ hmem

/-! ## Patterns that take longest words -/

/-- Where a word of the language stands, the pattern matches and takes at least that word. -/
def TakesLongest (p : Pattern) : Prop :=
  ∀ u ∈ p.language, ∀ v, ∃ n, p.width? (u ++ v) = some n ∧ u.length ≤ n

namespace TakesLongest

theorem width?_eq_some_iff (h : TakesLongest p) :
    p.width? s = some n ↔ ∃ u, LongestAt p.language s u ∧ n = u.length := by
  constructor
  · intro hn
    refine ⟨s.take n, ⟨take_mem_language hn, List.take_prefix n s, ?_⟩,
      (List.length_take_of_le (width?_le_length hn)).symm⟩
    rintro u hu ⟨v, rfl⟩
    obtain ⟨m, hm, hle⟩ := h u hu v
    rw [hn, Option.some.injEq] at hm
    rw [hm, List.length_take_of_le (hm ▸ width?_le_length hn)]
    exact hle
  · rintro ⟨u, ⟨hu, ⟨v, rfl⟩, hlongest⟩, rfl⟩
    obtain ⟨n, hn, hle⟩ := h u hu v
    have hge := hlongest _ (take_mem_language hn) (List.take_prefix n _)
    rw [List.length_take_of_le (width?_le_length hn)] at hge
    rw [hn, Nat.le_antisymm hge hle]

theorem width?_ne_none_iff (h : TakesLongest p) :
    p.width? s ≠ none ↔ ∃ u ∈ p.language, u <+: s := by
  rw [Option.ne_none_iff_exists']
  constructor
  · rintro ⟨n, hn⟩
    exact ⟨s.take n, take_mem_language hn, List.take_prefix n s⟩
  · rintro ⟨u, hu, v, rfl⟩
    exact (h u hu v).imp fun n hn => hn.1

/-- A word of the language is taken as a whole. -/
theorem width?_self (h : TakesLongest p) (hu : u ∈ p.language) : p.width? u = some u.length := by
  obtain ⟨n, hn, hle⟩ := h u hu []
  rw [List.append_nil] at hn
  rw [hn, Nat.le_antisymm (width?_le_length hn) hle]

/-- Nothing is taken beyond a word if what follows is outside of the class of the pattern. -/
theorem width?_append (h : TakesLongest p) (hK : p.Within K) (hu : u ∈ p.language)
    (hv : Outside K v) : p.width? (u ++ v) = some u.length := by
  rw [hK.width?_append hv, h.width?_self hu]

theorem ne_nil (h : TakesLongest p) (hc : Consuming p) (hu : u ∈ p.language) : u ≠ [] := by
  rintro rfl
  exact absurd (hc _ _ (h.width?_self hu)) (Nat.lt_irrefl 0)

theorem exists_head (h : TakesLongest p) (hK : p.HeadIn K) (hu : u ∈ p.language) (hne : u ≠ []) :
    ∃ c r, u = c :: r ∧ K c = true :=
  hK.exists_head (h.width?_self hu) (List.length_pos_iff.2 hne)

end TakesLongest

theorem takesLongest_word (text : List Char) : TakesLongest (word text) := by
  rintro _ rfl v
  exact ⟨_, width?_word_eq_some.2 ⟨List.prefix_append _ v, rfl⟩, Nat.le_refl _⟩

theorem takesLongest_one (f : Char → Bool) : TakesLongest (one f) := by
  rintro _ ⟨c, hc, rfl⟩ v
  exact ⟨1, by simp [hc], Nat.le_refl 1⟩

theorem takesLongest_oneOrMore_one (f : Char → Bool) : TakesLongest (oneOrMore (one f)) := by
  intro u hu v
  obtain ⟨hrun, hne⟩ := mem_language_oneOrMore.1 hu
  rw [mem_language_many_one] at hrun
  have hpos : 0 < u.length := List.length_pos_iff.2 (hne.resolve_right (by simp))
  have hle : u.length ≤ ((u ++ v).takeWhile f).length := by
    rw [List.takeWhile_append_of_pos hrun, List.length_append]
    exact Nat.le_add_right _ _
  exact ⟨_, by rw [width?_oneOrMore_one, if_neg (by omega)], hle⟩

namespace TakesLongest

/-- The first part of a choice must not match with less than a word of the second one. -/
theorem alt (hp : TakesLongest p) (hq : TakesLongest q)
    (h : ∀ u ∈ q.language, ∀ v n, p.width? (u ++ v) = some n → u.length ≤ n) :
    TakesLongest (alt p q) := by
  intro u hu v
  rcases mem_language_alt.1 hu with hu | hu
  · obtain ⟨n, hn, hle⟩ := hp u hu v
    exact ⟨n, width?_alt_of_some hn, hle⟩
  · cases hn : p.width? (u ++ v) with
    | some n => exact ⟨n, width?_alt_of_some hn, h u hu v n hn⟩
    | none =>
      rw [width?_alt_of_none hn]
      exact hq u hu v

theorem opt (hp : TakesLongest p) : TakesLongest (opt p) := by
  refine hp.alt (takesLongest_word []) ?_
  rintro _ rfl v n -
  exact Nat.zero_le n

/-- In a row the second part must begin where the first one cannot go on. -/
theorem seq (hp : TakesLongest p) (hq : TakesLongest q) (hK : p.Within K)
    (hhead : q.HeadIn fun c => !K c) (hend : Consuming q ∨ Total q) : TakesLongest (seq p q) := by
  intro u hu v
  obtain ⟨a, ha, b, hb, rfl⟩ := mem_language_seq.1 hu
  rw [List.append_assoc, List.length_append]
  by_cases hnil : b = []
  · subst hnil
    obtain ⟨n, hn, hle⟩ := hp a ha v
    have htotal := hend.resolve_left fun hc => hq.ne_nil hc hb rfl
    obtain ⟨m, hm⟩ := Option.ne_none_iff_exists'.1 (htotal ((a ++ v).drop n))
    refine ⟨n + m, width?_seq_eq_some.2 ⟨n, m, hn, hm, rfl⟩, ?_⟩
    rw [List.length_nil]
    omega
  · obtain ⟨c, r, rfl, hc⟩ := hq.exists_head hhead hb hnil
    have hout : Outside K (c :: r ++ v) := outside_cons.2 (by simpa using hc)
    obtain ⟨m, hm, hle⟩ := hq (c :: r) hb v
    refine ⟨a.length + m, width?_seq_eq_some.2 ⟨_, m, hp.width?_append hK ha hout, ?_, rfl⟩,
      Nat.add_le_add_left hle _⟩
    rw [List.drop_left, hm]

end TakesLongest
end CTree.Lexical.Pattern
