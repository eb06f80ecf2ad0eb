-- Binary search in a list that stands in the order of a key. It finds the
-- item with a key, or the place where one would stand.
import Mathlib.Order.Lattice

namespace binarysearch

variable {κ α : Type} [LinearOrder κ] (key : α → κ)

/-- Searches the items from `lo` to `hi`. -/
def searchIn (k : κ) (xs : List α) (lo hi : Nat) : Except Nat Nat :=
  if lo < hi then
    let mid := (lo + hi) / 2
    match xs[mid]? with
    | none => .error lo
    | some x =>
      if key x = k then .ok mid
      else if key x < k then searchIn k xs (mid + 1) hi
      else searchIn k xs lo mid
  else .error lo
termination_by hi - lo

/-- The index of an item with the key, or the index at which to insert one. -/
def search (k : κ) (xs : List α) : Except Nat Nat := searchIn key k xs 0 xs.length

variable {key} {k : κ} {xs : List α}

/-- The smaller keys come before `lo`, and the greater ones from `hi`. -/
structure Between (key : α → κ) (k : κ) (xs : List α) (lo hi : Nat) : Prop where
  le : lo ≤ hi
  inside : hi ≤ xs.length
  before : ∀ i < lo, ∀ x ∈ xs[i]?, key x < k
  behind : ∀ i, hi ≤ i → ∀ x ∈ xs[i]?, k < key x

theorem sorted_lt (hsorted : xs.Pairwise fun a b => key a < key b) {i j : Nat} {x y : α}
    (hx : xs[i]? = some x) (hy : xs[j]? = some y) (hij : i < j) : key x < key y := by
  obtain ⟨hi, rfl⟩ := List.getElem?_eq_some_iff.mp hx
  obtain ⟨hj, rfl⟩ := List.getElem?_eq_some_iff.mp hy
  exact List.pairwise_iff_getElem.mp hsorted i j hi hj hij

theorem searchIn_spec (hsorted : xs.Pairwise fun a b => key a < key b) {lo hi : Nat}
    (h : Between key k xs lo hi) :
    (∃ i x, searchIn key k xs lo hi = .ok i ∧ xs[i]? = some x ∧ key x = k) ∨
      ∃ i, searchIn key k xs lo hi = .error i ∧ Between key k xs i i := by
  fun_induction searchIn key k xs lo hi with
  | case1 lo hi hlt mid hnone =>
    have hin := h.inside
    rw [List.getElem?_eq_none_iff] at hnone
    omega
  | case2 lo hi hlt mid x hx hkey => exact .inl ⟨mid, x, rfl, hx, hkey⟩
  | case3 lo hi hlt mid x hx hne hless ih =>
    refine ih ⟨by omega, h.inside, fun i hi y hy => ?_, h.behind⟩
    rcases Nat.lt_or_eq_of_le (Nat.le_of_lt_succ hi) with hi | rfl
    · exact (sorted_lt hsorted hy hx hi).trans hless
    · obtain rfl := Option.some.inj (hx.symm.trans hy)
      exact hless
  | case4 lo hi hlt mid x hx hne hless ih =>
    have hgreater : k < key x := lt_of_le_of_ne (not_lt.mp hless) (Ne.symm hne)
    refine ih ⟨by omega, by have := h.inside; omega, h.before, fun i hi y hy => ?_⟩
    rcases Nat.lt_or_eq_of_le hi with hi | rfl
    · exact hgreater.trans (sorted_lt hsorted hx hy hi)
    · obtain rfl := Option.some.inj (hx.symm.trans hy)
      exact hgreater
  | case5 lo hi hge =>
    obtain rfl : lo = hi := Nat.le_antisymm h.le (Nat.le_of_not_lt hge)
    exact .inr ⟨lo, rfl, h⟩

/-- The search finds an item with the key, or the one place for it. -/
theorem search_spec (hsorted : xs.Pairwise fun a b => key a < key b) (k : κ) :
    (∃ i x, search key k xs = .ok i ∧ xs[i]? = some x ∧ key x = k) ∨
      ∃ i, search key k xs = .error i ∧ Between key k xs i i := by
  refine searchIn_spec hsorted ⟨Nat.zero_le _, Nat.le_refl _, nofun, fun i hi x hx => ?_⟩
  rw [List.getElem?_eq_none hi] at hx
  cases hx

end binarysearch
