-- What comes out of a chain of attempts that may fail: a result says that each
-- of them went through, and an error says which one did not.
import Mathlib.Data.List.Forall2

namespace attempts

variable {ε α β : Type}

theorem bind_ok_iff {x : Except ε α} {f : α → Except ε β} {b : β} :
    (x >>= f) = .ok b ↔ ∃ a, x = .ok a ∧ f a = .ok b := by
  cases x with
  | error e =>
    constructor
    · intro h
      cases h
    · rintro ⟨a, ha, -⟩
      cases ha
  | ok a =>
    constructor
    · exact fun h => ⟨a, rfl, h⟩
    · rintro ⟨a', ha, h⟩
      rwa [← Except.ok.inj ha] at h

theorem bind_ok {x : Except ε α} {f : α → Except ε β} {b : β} (h : x >>= f = .ok b) :
    ∃ a, x = .ok a ∧ f a = .ok b := bind_ok_iff.mp h

theorem map_ok {x : Except ε α} {f : α → β} {b : β} (h : x.map f = .ok b) :
    ∃ a, x = .ok a ∧ f a = b := by
  cases x with
  | error e => cases h
  | ok a => exact ⟨a, rfl, Except.ok.inj h⟩

theorem map_error {x : Except ε α} {f : α → β} {e : ε} (h : x.map f = .error e) :
    x = .error e := by
  cases x with
  | error e' => exact congrArg Except.error (Except.error.inj h)
  | ok a => cases h

theorem mapError_ok_iff {δ : Type} {x : Except ε α} {f : ε → δ} {a : α} :
    x.mapError f = .ok a ↔ x = .ok a := by
  cases x with
  | error e =>
    constructor
    · intro h
      cases h
    · intro h
      cases h
  | ok a' =>
    constructor
    · exact fun h => congrArg Except.ok (Except.ok.inj h)
    · exact fun h => congrArg Except.ok (Except.ok.inj h)

theorem bind_error_iff {x : Except ε α} {f : α → Except ε β} {e : ε} :
    (x >>= f) = .error e ↔ x = .error e ∨ ∃ a, x = .ok a ∧ f a = .error e := by
  cases x with
  | error e' =>
    constructor
    · exact fun h => .inl (congrArg Except.error (Except.error.inj h))
    · rintro (h | ⟨a, ha, -⟩)
      · exact congrArg Except.error (Except.error.inj h)
      · cases ha
  | ok a =>
    constructor
    · exact fun h => .inr ⟨a, rfl, h⟩
    · rintro (h | ⟨a', ha, h⟩)
      · cases h
      · rwa [← Except.ok.inj ha] at h

/-- Each item has its result, in order. -/
theorem mapM_forall₂ {f : α → Except ε β} {xs : List α} {ys : List β}
    (h : xs.mapM f = .ok ys) : List.Forall₂ (fun x y => f x = .ok y) xs ys := by
  induction xs generalizing ys with
  | nil =>
    cases h
    exact .nil
  | cons x xs ih =>
    rw [List.mapM_cons] at h
    obtain ⟨y, hy, h⟩ := bind_ok h
    obtain ⟨rest, hrest, h⟩ := bind_ok h
    cases h
    exact .cons hy (ih hrest)

theorem mapM_ok_iff {f : α → Except ε β} {xs : List α} {ys : List β} :
    xs.mapM f = .ok ys ↔ List.Forall₂ (fun x y => f x = .ok y) xs ys := by
  refine ⟨mapM_forall₂, fun h => ?_⟩
  induction h with
  | nil => rfl
  | cons hfirst _ ih => rw [List.mapM_cons, hfirst, bind_ok_iff.mpr ⟨_, rfl, by rw [ih]; rfl⟩]

theorem mapM_mem {f : α → Except ε β} {xs : List α} {ys : List β} (h : xs.mapM f = .ok ys) :
    ∀ y ∈ ys, ∃ x ∈ xs, f x = .ok y := by
  have hall := mapM_forall₂ h
  clear h
  intro y hy
  induction hall with
  | nil => cases hy
  | cons hfirst _ ih =>
    rcases List.mem_cons.mp hy with rfl | hy
    · exact ⟨_, List.mem_cons_self, hfirst⟩
    · obtain ⟨x, hx, hfound⟩ := ih hy
      exact ⟨x, List.mem_cons_of_mem _ hx, hfound⟩

/-- The first item that fails gives its error, and those before it have results. -/
theorem mapM_error_iff {f : α → Except ε β} {xs : List α} {e : ε} :
    xs.mapM f = .error e ↔ ∃ (k : Nat) (x : α), xs[k]? = some x ∧ f x = .error e ∧
      ∀ j < k, ∀ y, xs[j]? = some y → ∃ z, f y = .ok z := by
  induction xs with
  | nil =>
    constructor
    · intro h
      cases h
    · rintro ⟨k, x, hx, -⟩
      cases hx
  | cons first rest ih =>
    rw [List.mapM_cons, bind_error_iff]
    constructor
    · rintro (h | ⟨y, hy, h⟩)
      · exact ⟨0, first, rfl, h, fun j hj => absurd hj (Nat.not_lt_zero j)⟩
      · rcases bind_error_iff.mp h with h | ⟨ys, -, h⟩
        · obtain ⟨k, x, hx, hfx, hbefore⟩ := ih.mp h
          refine ⟨k + 1, x, hx, hfx, fun j hj z hz => ?_⟩
          cases j with
          | zero =>
            obtain rfl := Option.some.inj hz
            exact ⟨y, hy⟩
          | succ j => exact hbefore j (Nat.lt_of_succ_lt_succ hj) z hz
        · cases h
    · rintro ⟨k, x, hx, hfx, hbefore⟩
      cases k with
      | zero =>
        obtain rfl := Option.some.inj hx
        exact .inl hfx
      | succ k =>
        obtain ⟨y, hy⟩ := hbefore 0 (Nat.succ_pos k) first rfl
        refine .inr ⟨y, hy, bind_error_iff.mpr (.inl (ih.mpr ⟨k, x, hx, hfx, fun j hj z hz => ?_⟩))⟩
        exact hbefore (j + 1) (Nat.succ_lt_succ hj) z hz

/-- A fold that fails does so at one of the items. -/
theorem foldlM_error {f : β → α → Except ε β} {l : List α} {b : β} {e : ε}
    (h : l.foldlM f b = .error e) : ∃ a ∈ l, ∃ b', f b' a = .error e := by
  induction l generalizing b with
  | nil => cases h
  | cons a l ih =>
    rw [List.foldlM_cons] at h
    cases hstep : f b a with
    | error e' =>
      rw [hstep] at h
      obtain rfl := Except.error.inj h
      exact ⟨a, List.mem_cons_self, b, hstep⟩
    | ok b' =>
      rw [hstep] at h
      obtain ⟨a', ha', hfound⟩ := ih h
      exact ⟨a', List.mem_cons_of_mem _ ha', hfound⟩

end attempts
