-- Regular expressions over any alphabet, with classes of letters. The longest
-- prefix that an expression takes is found letter by letter with derivatives,
-- and of a list of rules the first with the longest prefix wins.
import Mathlib.Computability.Language

inductive Regex (α : Type) where
  | empty
  | epsilon
  | letter (p : α → Bool)
  | seq (r s : Regex α)
  | alt (r s : Regex α)
  | star (r : Regex α)

namespace Regex

variable {α : Type}

/-! ## Meaning -/

/-- The words of an expression. -/
def lang : Regex α → Language α
  | empty => 0
  | epsilon => 1
  | letter p => {w | ∃ a, p a = true ∧ w = [a]}
  | seq r s => r.lang * s.lang
  | alt r s => r.lang + s.lang
  | star r => KStar.kstar r.lang

/-- The expression of one word. -/
def word [DecidableEq α] : List α → Regex α
  | [] => epsilon
  | a :: w => seq (letter (· = a)) (word w)

def plus (r : Regex α) : Regex α := seq r (star r)

/-! ## Derivatives -/

def nullable : Regex α → Bool
  | empty | letter _ => false
  | epsilon | star _ => true
  | seq r s => r.nullable && s.nullable
  | alt r s => r.nullable || s.nullable

/-- What an expression takes after a letter. -/
def deriv (a : α) : Regex α → Regex α
  | empty | epsilon => empty
  | letter p => if p a then epsilon else empty
  | seq r s => if r.nullable then alt (seq (deriv a r) s) (deriv a s) else seq (deriv a r) s
  | alt r s => alt (deriv a r) (deriv a s)
  | star r => seq (deriv a r) (star r)

/-- The length of the longest prefix that is a word of the expression. -/
def longest (r : Regex α) : List α → Option Nat
  | [] => if r.nullable then some 0 else none
  | a :: w =>
    match longest (r.deriv a) w with
    | some n => some (n + 1)
    | none => if r.nullable then some 0 else none

theorem mem_letter {p : α → Bool} {w : List α} :
    w ∈ (letter p).lang ↔ ∃ a, p a = true ∧ w = [a] := Iff.rfl

theorem mem_seq {r s : Regex α} {w : List α} :
    w ∈ (seq r s).lang ↔ ∃ u ∈ r.lang, ∃ v ∈ s.lang, u ++ v = w := Iff.rfl

theorem mem_alt {r s : Regex α} {w : List α} : w ∈ (alt r s).lang ↔ w ∈ r.lang ∨ w ∈ s.lang :=
  Iff.rfl

/-- A repetition is empty, or one word and a repetition. -/
theorem mem_star {r : Regex α} {w : List α} :
    w ∈ (star r).lang ↔ w = [] ∨ ∃ u ∈ r.lang, ∃ v ∈ (star r).lang, u ++ v = w := by
  show w ∈ KStar.kstar r.lang ↔ _
  conv_lhs => rw [← Language.one_add_self_mul_kstar_eq_kstar]
  rfl

theorem mem_word [DecidableEq α] {u w : List α} : u ∈ (word w).lang ↔ u = w := by
  induction w generalizing u with
  | nil => exact Language.mem_one u
  | cons a w ih =>
    rw [word, mem_seq]
    constructor
    · rintro ⟨_, ⟨b, hb, rfl⟩, v, hv, rfl⟩
      rw [ih.mp hv, of_decide_eq_true hb]
      rfl
    · rintro rfl
      exact ⟨[a], ⟨a, decide_eq_true rfl, rfl⟩, w, ih.mpr rfl, rfl⟩

theorem nullable_iff (r : Regex α) : r.nullable = true ↔ [] ∈ r.lang := by
  induction r with
  | empty => exact iff_of_false Bool.false_ne_true (Language.notMem_zero [])
  | epsilon => exact iff_of_true rfl Language.nil_mem_one
  | letter p =>
    refine iff_of_false Bool.false_ne_true ?_
    rintro ⟨a, -, h⟩
    cases h
  | seq r s ihr ihs =>
    rw [nullable, Bool.and_eq_true, ihr, ihs, mem_seq]
    constructor
    · rintro ⟨hr, hs⟩
      exact ⟨[], hr, [], hs, rfl⟩
    · rintro ⟨u, hu, v, hv, huv⟩
      obtain ⟨rfl, rfl⟩ := List.append_eq_nil_iff.mp huv
      exact ⟨hu, hv⟩
  | alt r s ihr ihs => rw [nullable, Bool.or_eq_true, ihr, ihs, mem_alt]
  | star r => exact iff_of_true rfl (mem_star.mpr (.inl rfl))

/-- A word after a letter: the letter is the first of the left part, or the left
part is empty. -/
theorem cons_mem_seq {r s : Regex α} {a : α} {w : List α} :
    a :: w ∈ (seq r s).lang ↔
      (∃ u v, a :: u ∈ r.lang ∧ v ∈ s.lang ∧ u ++ v = w) ∨ [] ∈ r.lang ∧ a :: w ∈ s.lang := by
  rw [mem_seq]
  constructor
  · rintro ⟨u, hu, v, hv, huv⟩
    cases u with
    | nil => exact .inr ⟨hu, by rwa [← huv]⟩
    | cons b u =>
      obtain ⟨rfl, rfl⟩ := List.cons.inj huv
      exact .inl ⟨u, v, hu, hv, rfl⟩
  · rintro (⟨u, v, hu, hv, rfl⟩ | ⟨hr, hs⟩)
    · exact ⟨a :: u, hu, v, hv, rfl⟩
    · exact ⟨[], hr, a :: w, hs, rfl⟩

/-- A repetition after a letter: the letter is the first of a word that is not
empty. -/
theorem cons_mem_star {r : Regex α} {a : α} {w : List α} :
    a :: w ∈ (star r).lang ↔
      ∃ u v, a :: u ∈ r.lang ∧ v ∈ (star r).lang ∧ u ++ v = w := by
  constructor
  · intro h
    obtain ⟨words, heq, hwords⟩ := Language.mem_kstar_iff_exists_nonempty.mp h
    cases words with
    | nil => cases heq
    | cons u words =>
      obtain ⟨hu, hne⟩ := hwords u List.mem_cons_self
      cases u with
      | nil => exact absurd rfl hne
      | cons b u =>
        obtain ⟨rfl, rfl⟩ := List.cons.inj heq
        refine ⟨u, words.flatten, hu, Language.mem_kstar.mpr ⟨words, rfl, fun v hv => ?_⟩, rfl⟩
        exact (hwords v (List.mem_cons_of_mem _ hv)).1
  · rintro ⟨u, v, hu, hv, rfl⟩
    exact mem_star.mpr (.inr ⟨a :: u, hu, v, hv, rfl⟩)

theorem mem_deriv (r : Regex α) (a : α) (w : List α) : w ∈ (r.deriv a).lang ↔ a :: w ∈ r.lang := by
  induction r generalizing w with
  | empty => exact Iff.rfl
  | epsilon => exact iff_of_false (Language.notMem_zero w) (by rintro ⟨⟩)
  | letter p =>
    rw [deriv, mem_letter]
    by_cases hp : p a = true
    · rw [if_pos hp]
      constructor
      · intro h
        obtain rfl := (Language.mem_one w).mp h
        exact ⟨a, hp, rfl⟩
      · rintro ⟨b, -, heq⟩
        obtain ⟨-, rfl⟩ := List.cons.inj heq
        exact Language.nil_mem_one
    · rw [if_neg hp]
      refine iff_of_false (Language.notMem_zero w) ?_
      rintro ⟨b, hb, heq⟩
      obtain ⟨rfl, -⟩ := List.cons.inj heq
      exact hp hb
  | seq r s ihr ihs =>
    have hleft : w ∈ (seq (r.deriv a) s).lang ↔
        ∃ u v, a :: u ∈ r.lang ∧ v ∈ s.lang ∧ u ++ v = w := by
      rw [mem_seq]
      constructor
      · rintro ⟨u, hu, v, hv, huv⟩
        exact ⟨u, v, (ihr u).mp hu, hv, huv⟩
      · rintro ⟨u, v, hu, hv, huv⟩
        exact ⟨u, (ihr u).mpr hu, v, hv, huv⟩
    rw [deriv, cons_mem_seq, ← hleft, ← nullable_iff]
    split
    · next hnull => rw [mem_alt, ihs, hnull, eq_self, true_and]
    · next hnull => simp [hnull]
  | alt r s ihr ihs => rw [deriv, mem_alt, ihr, ihs, mem_alt]
  | star r ih =>
    rw [deriv, cons_mem_star, mem_seq]
    constructor
    · rintro ⟨u, hu, v, hv, huv⟩
      exact ⟨u, v, (ih u).mp hu, hv, huv⟩
    · rintro ⟨u, v, hu, hv, huv⟩
      exact ⟨u, (ih u).mpr hu, v, hv, huv⟩

/-! ## The longest prefix -/

/-- The first `n` letters are a word of the expression. -/
def Takes (r : Regex α) (w : List α) (n : Nat) : Prop :=
  ∃ u v, w = u ++ v ∧ u.length = n ∧ u ∈ r.lang

theorem takes_zero {r : Regex α} {w : List α} : r.Takes w 0 ↔ r.nullable = true := by
  rw [nullable_iff]
  constructor
  · rintro ⟨u, v, -, hlen, hu⟩
    rwa [List.eq_nil_of_length_eq_zero hlen] at hu
  · intro h
    exact ⟨[], w, rfl, rfl, h⟩

theorem takes_nil {r : Regex α} {n : Nat} : ¬ r.Takes [] (n + 1) := by
  rintro ⟨u, v, heq, hlen, -⟩
  obtain ⟨rfl, -⟩ := List.append_eq_nil_iff.mp heq.symm
  cases hlen

theorem takes_cons {r : Regex α} {a : α} {w : List α} {n : Nat} :
    r.Takes (a :: w) (n + 1) ↔ (r.deriv a).Takes w n := by
  constructor
  · rintro ⟨u, v, heq, hlen, hu⟩
    cases u with
    | nil => cases hlen
    | cons b u =>
      obtain ⟨rfl, rfl⟩ := List.cons.inj heq
      exact ⟨u, v, rfl, Nat.succ.inj hlen, (mem_deriv r a u).mpr hu⟩
  · rintro ⟨u, v, rfl, rfl, hu⟩
    exact ⟨a :: u, v, rfl, rfl, (mem_deriv r a u).mp hu⟩

theorem longest_spec (r : Regex α) (w : List α) :
    match r.longest w with
    | some n => r.Takes w n ∧ ∀ m, r.Takes w m → m ≤ n
    | none => ∀ m, ¬ r.Takes w m := by
  induction w generalizing r with
  | nil =>
    rw [longest]
    by_cases hnull : r.nullable = true
    · rw [if_pos hnull]
      refine ⟨takes_zero.mpr hnull, fun m hm => ?_⟩
      cases m with
      | zero => exact Nat.le_refl _
      | succ m => exact absurd hm takes_nil
    · rw [if_neg hnull]
      intro m hm
      cases m with
      | zero => exact hnull (takes_zero.mp hm)
      | succ m => exact takes_nil hm
  | cons a w ih =>
    have hrest := ih (r.deriv a)
    rw [longest]
    cases hlongest : (r.deriv a).longest w with
    | some n =>
      rw [hlongest] at hrest
      refine ⟨takes_cons.mpr hrest.1, fun m hm => ?_⟩
      cases m with
      | zero => exact Nat.zero_le _
      | succ m => exact Nat.succ_le_succ (hrest.2 m (takes_cons.mp hm))
    | none =>
      rw [hlongest] at hrest
      have hsucc : ∀ m, ¬ r.Takes (a :: w) (m + 1) := fun m hm => hrest m (takes_cons.mp hm)
      by_cases hnull : r.nullable = true
      · simp only [hnull, if_true]
        refine ⟨takes_zero.mpr hnull, fun m hm => ?_⟩
        cases m with
        | zero => exact Nat.le_refl _
        | succ m => exact absurd hm (hsucc m)
      · simp only [hnull, Bool.false_eq_true, if_false]
        intro m hm
        cases m with
        | zero => exact hnull (takes_zero.mp hm)
        | succ m => exact hsucc m hm

theorem longest_takes {r : Regex α} {w : List α} {n : Nat} (h : r.longest w = some n) :
    r.Takes w n ∧ ∀ m, r.Takes w m → m ≤ n := by
  have hspec := longest_spec r w
  rwa [h] at hspec

theorem longest_none {r : Regex α} {w : List α} (h : r.longest w = none) (m : Nat) :
    ¬ r.Takes w m := by
  have hspec := longest_spec r w
  rw [h] at hspec
  exact hspec m

/-! ### Expressions without words -/

/-- The shape of the expression leaves no word. -/
def isVoid : Regex α → Bool
  | empty => true
  | epsilon | letter _ | star _ => false
  | seq r s => r.isVoid || s.isVoid
  | alt r s => r.isVoid && s.isVoid

theorem notMem_of_isVoid {r : Regex α} (h : r.isVoid = true) (w : List α) : w ∉ r.lang := by
  induction r generalizing w with
  | empty => exact Language.notMem_zero w
  | epsilon | letter _ | star _ => cases h
  | seq r s ihr ihs =>
    rw [isVoid, Bool.or_eq_true] at h
    rintro ⟨u, hu, v, hv, -⟩
    rcases h with h | h
    · exact ihr h u hu
    · exact ihs h v hv
  | alt r s ihr ihs =>
    rw [isVoid, Bool.and_eq_true] at h
    rintro (hw | hw)
    · exact ihr h.1 w hw
    · exact ihs h.2 w hw

/-! ## Rules -/

variable {κ : Type}

/-- The first rule that takes the longest prefix, and its length. -/
def longestOf : List (κ × Regex α) → List α → Option (κ × Nat)
  | [], _ => none
  | (kind, r) :: rules, w =>
    match r.longest w, longestOf rules w with
    | none, best => best
    | some n, none => some (kind, n)
    | some n, some (kind', n') => if n < n' then some (kind', n') else some (kind, n)

theorem longestOf_none {rules : List (κ × Regex α)} {w : List α} :
    longestOf rules w = none ↔ ∀ rule ∈ rules, ∀ m, ¬ rule.2.Takes w m := by
  induction rules with
  | nil => exact iff_of_true rfl (List.forall_mem_nil _)
  | cons rule rules ih =>
    obtain ⟨kind, r⟩ := rule
    rw [longestOf, List.forall_mem_cons, ← ih]
    cases hone : r.longest w with
    | none => simp only [longest_none hone, not_false_eq_true, implies_true, true_and]
    | some n =>
      have htakes := (longest_takes hone).1
      refine iff_of_false ?_ fun h => h.1 n htakes
      cases longestOf rules w with
      | none => nofun
      | some best =>
        simp only
        split <;> nofun

/-- The winner is a rule, takes what it takes at the longest, and no rule takes
more. -/
theorem longestOf_some {rules : List (κ × Regex α)} {w : List α} {kind : κ} {n : Nat}
    (h : longestOf rules w = some (kind, n)) :
    (∃ r, (kind, r) ∈ rules ∧ r.longest w = some n) ∧
      ∀ rule ∈ rules, ∀ m, rule.2.Takes w m → m ≤ n := by
  induction rules generalizing kind n with
  | nil => cases h
  | cons rule rules ih =>
    obtain ⟨kind₁, r₁⟩ := rule
    rw [longestOf] at h
    cases hone : r₁.longest w with
    | none =>
      rw [hone] at h
      obtain ⟨⟨r, hr, hlongest⟩, hmost⟩ := ih h
      refine ⟨⟨r, List.mem_cons_of_mem _ hr, hlongest⟩, List.forall_mem_cons.mpr ⟨?_, hmost⟩⟩
      exact fun m hm => absurd hm (longest_none hone m)
    | some n₁ =>
      have hmost₁ := (longest_takes hone).2
      rw [hone] at h
      cases hrest : longestOf rules w with
      | none =>
        rw [hrest] at h
        obtain ⟨rfl, rfl⟩ := Prod.mk.inj (Option.some.inj h)
        refine ⟨⟨r₁, List.mem_cons_self, hone⟩, List.forall_mem_cons.mpr ⟨hmost₁, ?_⟩⟩
        exact fun rule hrule m hm => absurd hm (longestOf_none.mp hrest rule hrule m)
      | some best =>
        obtain ⟨kind₂, n₂⟩ := best
        obtain ⟨⟨r, hr, hlongest⟩, hmost⟩ := ih hrest
        rw [hrest] at h
        simp only at h
        split at h
        · next hlt =>
          obtain ⟨rfl, rfl⟩ := Prod.mk.inj (Option.some.inj h)
          refine ⟨⟨r, List.mem_cons_of_mem _ hr, hlongest⟩, List.forall_mem_cons.mpr ⟨?_, hmost⟩⟩
          exact fun m hm => (hmost₁ m hm).trans hlt.le
        · next hle =>
          obtain ⟨rfl, rfl⟩ := Prod.mk.inj (Option.some.inj h)
          refine ⟨⟨r₁, List.mem_cons_self, hone⟩, List.forall_mem_cons.mpr ⟨hmost₁, ?_⟩⟩
          exact fun rule hrule m hm => (hmost rule hrule m hm).trans (Nat.le_of_not_lt hle)

end Regex
