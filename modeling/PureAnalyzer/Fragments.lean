-- Texts made of fragments, each behind its length. A row of fragments is
-- read back from its text, so a tree that is written as fragments is read
-- back as soon as no two trees write rows that run into each other.
import Mathlib.Data.List.Basic
import Mathlib.Data.List.Forall2
import Mathlib.Order.Defs.LinearOrder

namespace fragments

instance instLinearOrderByte : LinearOrder UInt8 where
  le_refl := UInt8.le_refl
  le_trans _ _ _ := UInt8.le_trans
  le_antisymm _ _ := UInt8.le_antisymm
  le_total := UInt8.le_total
  lt_iff_le_not_ge a b := by
    rw [UInt8.lt_iff_toNat_lt, UInt8.le_iff_toNat_le, UInt8.le_iff_toNat_le]
    omega
  toDecidableLE := inferInstance

/-- A text is its UTF-8 bytes. -/
abbrev Text := List UInt8

/-! ## Numbers in decimal -/

def decimal (n : Nat) : Text := (Nat.toDigits 10 n).map Char.toUInt8

/-- A signed number, with a dash before a negative one. -/
def signed : Int → Text
  | .ofNat n => decimal n
  | .negSucc n => 45 :: decimal (n + 1)

theorem isDigit_of_mem {n : Nat} {c : Char} (h : c ∈ Nat.toDigits 10 n) : c.isDigit = true :=
  Nat.isDigit_of_mem_toDigits (by omega) (by omega) h

theorem ofUInt8_toUInt8 {c : Char} (h : c.isDigit = true) : Char.ofUInt8 c.toUInt8 = c := by
  simp only [Char.isDigit, Bool.and_eq_true, decide_eq_true_eq, ge_iff_le] at h
  have hle : c.val ≤ 57 := h.2
  have hlt : c.toNat < 256 := by
    have : c.val.toNat ≤ 57 := UInt32.le_iff_toNat_le.mp hle
    show c.val.toNat < 256
    omega
  apply Char.ext
  apply UInt32.toNat.inj
  show (c.val.toUInt8).toNat = c.val.toNat
  rw [UInt32.toNat_toUInt8]
  exact Nat.mod_eq_of_lt hlt

theorem decimal_inj {m n : Nat} : decimal m = decimal n ↔ m = n := by
  constructor
  · intro h
    have hback : ∀ k, (decimal k).map Char.ofUInt8 = Nat.toDigits 10 k := by
      intro k
      unfold decimal
      rw [List.map_map]
      conv => rhs; rw [← List.map_id (Nat.toDigits 10 k)]
      apply List.map_congr_left
      intro c hc
      exact ofUInt8_toUInt8 (isDigit_of_mem hc)
    have hdigits : Nat.toDigits 10 m = Nat.toDigits 10 n := by rw [← hback, ← hback, h]
    rw [← Nat.ofDigitChars_ten_toDigits (n := m), ← Nat.ofDigitChars_ten_toDigits (n := n), hdigits]
  · rintro rfl
    rfl

/-- A digit is none of the bytes below it, and not the colon. -/
theorem digit_of_mem_decimal {n : Nat} {b : UInt8} (h : b ∈ decimal n) : 48 ≤ b ∧ b < 58 := by
  unfold decimal at h
  obtain ⟨c, hc, rfl⟩ := List.mem_map.mp h
  have hdigit := isDigit_of_mem hc
  simp only [Char.isDigit, Bool.and_eq_true, decide_eq_true_eq, ge_iff_le] at hdigit
  have h48 : 48 ≤ c.val.toNat := UInt32.le_iff_toNat_le.mp hdigit.1
  have h57 : c.val.toNat ≤ 57 := UInt32.le_iff_toNat_le.mp hdigit.2
  have hval : c.toUInt8.toNat = c.val.toNat := by
    show (c.val.toUInt8).toNat = c.val.toNat
    rw [UInt32.toNat_toUInt8]
    omega
  constructor
  · rw [UInt8.le_iff_toNat_le, hval]
    exact h48
  · rw [UInt8.lt_iff_toNat_lt, hval]
    exact Nat.lt_of_le_of_lt h57 (by decide)

theorem signed_inj {i j : Int} : signed i = signed j ↔ i = j := by
  constructor
  · intro h
    cases i with
    | ofNat m =>
      cases j with
      | ofNat n => rw [decimal_inj.mp h]
      | negSucc n =>
        have hdash : (45 : UInt8) ∈ decimal m := by
          rw [show decimal m = 45 :: decimal (n + 1) from h]
          simp
        exact absurd (digit_of_mem_decimal hdash).1 (by decide)
    | negSucc m =>
      cases j with
      | ofNat n =>
        have hdash : (45 : UInt8) ∈ decimal n := by
          rw [show decimal n = 45 :: decimal (m + 1) from h.symm]
          simp
        exact absurd (digit_of_mem_decimal hdash).1 (by decide)
      | negSucc n =>
        have hsucc := decimal_inj.mp (List.cons.inj h).2
        rw [show m = n by omega]
  · rintro rfl
    rfl

/-! ## Fragments -/

/-- A fragment: the number of its bytes, a colon, and the bytes. -/
def fragment (value : Text) : Text := decimal value.length ++ 58 :: value

/-- A row of fragments, one after the other. -/
def written (row : List Text) : Text := row.flatMap fragment

/-- The text before the first colon decides where a fragment ends. -/
theorem decimal_colon {m n : Nat} {r s : Text} (h : decimal m ++ 58 :: r = decimal n ++ 58 :: s) :
    m = n ∧ r = s := by
  have hcolon : ∀ {k : Nat}, (58 : UInt8) ∉ decimal k := by
    intro k hmem
    exact absurd (digit_of_mem_decimal hmem).2 (by decide)
  have hcut : ∀ (u v : Text), (58 : UInt8) ∉ u → (58 : UInt8) ∉ v →
      u ++ 58 :: r = v ++ 58 :: s → u = v ∧ r = s := by
    intro u
    induction u with
    | nil =>
      intro v _ hv huv
      cases v with
      | nil => exact ⟨rfl, (List.cons.inj huv).2⟩
      | cons b v =>
        obtain rfl : 58 = b := (List.cons.inj huv).1
        exact absurd (List.mem_cons_self ..) hv
    | cons a u ih =>
      intro v hu hv huv
      cases v with
      | nil =>
        obtain rfl : a = 58 := (List.cons.inj huv).1
        exact absurd (List.mem_cons_self ..) hu
      | cons b v =>
        obtain ⟨hab, hrest⟩ := List.cons.inj huv
        obtain ⟨huv', hrs⟩ := ih v (fun hm => hu (List.mem_cons_of_mem _ hm))
          (fun hm => hv (List.mem_cons_of_mem _ hm)) hrest
        exact ⟨by rw [hab, huv'], hrs⟩
  obtain ⟨hdec, hrs⟩ := hcut _ _ hcolon hcolon h
  exact ⟨decimal_inj.mp hdec, hrs⟩

theorem fragment_append {u v r s : Text} : fragment u ++ r = fragment v ++ s ↔ u = v ∧ r = s := by
  constructor
  · intro h
    unfold fragment at h
    rw [List.append_assoc, List.append_assoc, List.cons_append, List.cons_append] at h
    obtain ⟨hlen, hrest⟩ := decimal_colon h
    exact List.append_inj hrest hlen
  · rintro ⟨rfl, rfl⟩
    rfl

theorem fragment_ne_nil (value : Text) : fragment value ≠ [] := by
  unfold fragment
  simp

/-- A row of fragments is read back from its text. -/
theorem written_inj {row row' : List Text} : written row = written row' ↔ row = row' := by
  constructor
  · intro h
    induction row generalizing row' with
    | nil =>
      cases row' with
      | nil => rfl
      | cons v row' => simp [written, fragment_ne_nil] at h
    | cons u row ih =>
      cases row' with
      | nil => simp [written, fragment_ne_nil] at h
      | cons v row' =>
        simp only [written, List.flatMap_cons, fragment_append] at h
        rw [h.1, ih h.2]
  · rintro rfl
    rfl

/-! ## Rows that do not run into each other -/

/-- In every row, `u` and `v` in the same place end in the same place, and
they are there exactly when `P` holds. -/
def Aligned {τ : Type} (u v : List τ) (P : Prop) : Prop :=
  ∀ r s, u ++ r = v ++ s ↔ P ∧ r = s

namespace Aligned

variable {τ : Type} {u v u' v' : List τ} {P Q : Prop} {a b : τ}

theorem nil : Aligned ([] : List τ) [] True := by
  intro r s
  simp

theorem congr (h : Aligned u v P) (hpq : P ↔ Q) : Aligned u v Q := by
  intro r s
  rw [h r s, hpq]

/-- What is aligned is one row exactly when its property holds. -/
theorem eq_iff (h : Aligned u v P) : u = v ↔ P := by
  have hnil := h [] []
  simpa using hnil

theorem append (h : Aligned u v P) (k : P → Aligned u' v' Q) :
    Aligned (u ++ u') (v ++ v') (P ∧ Q) := by
  intro r s
  rw [List.append_assoc, List.append_assoc, h]
  constructor
  · rintro ⟨hp, hrest⟩
    obtain ⟨hq, hrs⟩ := (k hp r s).mp hrest
    exact ⟨⟨hp, hq⟩, hrs⟩
  · rintro ⟨⟨hp, hq⟩, hrs⟩
    exact ⟨hp, (k hp r s).mpr ⟨hq, hrs⟩⟩

theorem cons (k : a = b → Aligned u v Q) : Aligned (a :: u) (b :: v) (a = b ∧ Q) := by
  intro r s
  rw [List.cons_append, List.cons_append, List.cons.injEq]
  constructor
  · rintro ⟨hab, hrest⟩
    obtain ⟨hq, hrs⟩ := (k hab r s).mp hrest
    exact ⟨⟨hab, hq⟩, hrs⟩
  · rintro ⟨⟨hab, hq⟩, hrs⟩
    exact ⟨hab, (k hab r s).mpr ⟨hq, hrs⟩⟩

theorem single : Aligned [a] [b] (a = b) := (cons fun _ => nil).congr (by simp)

/-- A tag that both rows start with says nothing. -/
theorem tag (h : Aligned u v P) : Aligned (a :: u) (a :: v) P :=
  (cons fun _ => h).congr (by simp)

theorem ne (h : a ≠ b) : Aligned (a :: u) (b :: v) False := by
  intro r s
  simp [h]

/-- Lists of one length are written item by item. -/
theorem flatMap {α β : Type} {f : α → List τ} {g : β → List τ} {R : α → β → Prop}
    {xs : List α} {ys : List β} (hlen : xs.length = ys.length)
    (h : ∀ x ∈ xs, ∀ y ∈ ys, Aligned (f x) (g y) (R x y)) :
    Aligned (xs.flatMap f) (ys.flatMap g) (List.Forall₂ R xs ys) := by
  induction xs generalizing ys with
  | nil =>
    cases ys with
    | nil => exact nil.congr (by simp)
    | cons y ys => cases hlen
  | cons x xs ih =>
    cases ys with
    | nil => cases hlen
    | cons y ys =>
      rw [List.flatMap_cons, List.flatMap_cons]
      have hhead := h x (List.mem_cons_self ..) y (List.mem_cons_self ..)
      have htail := ih (Nat.succ.inj hlen)
        (fun x hx y hy => h x (List.mem_cons_of_mem _ hx) y (List.mem_cons_of_mem _ hy))
      exact (hhead.append fun _ => htail).congr (by rw [List.forall₂_cons])

/-- A list behind the number of its items. -/
theorem counted {α β : Type} {f : α → List Text} {g : β → List Text} {R : α → β → Prop}
    (xs : List α) (ys : List β) (h : ∀ x ∈ xs, ∀ y ∈ ys, Aligned (f x) (g y) (R x y)) :
    Aligned (decimal xs.length :: xs.flatMap f) (decimal ys.length :: ys.flatMap g)
      (List.Forall₂ R xs ys) := by
  refine (cons (Q := List.Forall₂ R xs ys) fun hlen => flatMap (decimal_inj.mp hlen) h).congr ?_
  constructor
  · exact fun hrow => hrow.2
  · exact fun hall => ⟨by rw [hall.length_eq], hall⟩

end Aligned

end fragments
