-- Sorting a list and dropping repeats gives one list for each set. Two lists
-- come to the same list exactly when they have the same members.
import Mathlib.Data.List.Sort

namespace sortedsets

variable {α : Type}

/-- Drops each item that its successor repeats. -/
def dedup [DecidableEq α] : List α → List α
  | a :: b :: rest => if a = b then dedup (b :: rest) else a :: dedup (b :: rest)
  | rest => rest

theorem mem_dedup [DecidableEq α] {a : α} {l : List α} : a ∈ dedup l ↔ a ∈ l := by
  fun_induction dedup l with
  | case1 b rest ih => simp [ih]
  | case2 b c rest h ih => simp [ih]
  | case3 rest h => rfl

theorem dedup_of_nodup [DecidableEq α] {l : List α} (h : l.Nodup) : dedup l = l := by
  fun_induction dedup l with
  | case1 b rest ih => simp at h
  | case2 b c rest hne ih => rw [ih h.of_cons]
  | case3 rest hrest => rfl

variable [LinearOrder α]

/-- Neighbours of a sorted list that were told apart are in strict order. -/
theorem dedup_strict {l : List α} (h : l.Pairwise (· ≤ ·)) : (dedup l).Pairwise (· < ·) := by
  fun_induction dedup l with
  | case1 b rest ih => exact ih h.of_cons
  | case2 b c rest hne ih =>
    refine List.pairwise_cons.mpr ⟨fun d hd => ?_, ih h.of_cons⟩
    rw [mem_dedup] at hd
    obtain ⟨hle, hrest⟩ := List.pairwise_cons.mp h
    have hbc : b < c := lt_of_le_of_ne (hle c (List.mem_cons_self ..)) hne
    rcases List.mem_cons.mp hd with rfl | hd
    · exact hbc
    · exact lt_of_lt_of_le hbc ((List.pairwise_cons.mp hrest).1 d hd)
  | case3 rest hrest =>
    match rest, hrest with
    | [], _ => exact List.Pairwise.nil
    | [b], _ => exact List.pairwise_singleton _ _
    | b :: c :: rest, hrest => exact absurd rfl (hrest b c rest)

def sort (l : List α) : List α := l.insertionSort (· ≤ ·)

theorem sort_pairwise (l : List α) : (sort l).Pairwise (· ≤ ·) := l.pairwise_insertionSort _

theorem sort_perm (l : List α) : (sort l).Perm l := l.perm_insertionSort _

@[simp]
theorem mem_sort {a : α} {l : List α} : a ∈ sort l ↔ a ∈ l := (sort_perm l).mem_iff

/-- A list in order, with every member once. -/
def sortDedup (l : List α) : List α := dedup (sort l)

@[simp]
theorem mem_sortDedup {a : α} {l : List α} : a ∈ sortDedup l ↔ a ∈ l := by
  rw [sortDedup, mem_dedup, mem_sort]

theorem sortDedup_strict (l : List α) : (sortDedup l).Pairwise (· < ·) :=
  dedup_strict (sort_pairwise l)

/-- Two lists in strict order with the same members are one list. -/
theorem eq_of_strict {l l' : List α} (h : l.Pairwise (· < ·)) (h' : l'.Pairwise (· < ·))
    (hmem : ∀ a, a ∈ l ↔ a ∈ l') : l = l' := by
  have hperm : l.Perm l' := by
    apply (List.perm_ext_iff_of_nodup (h.imp ne_of_lt) (h'.imp ne_of_lt)).mpr
    exact hmem
  exact hperm.eq_of_pairwise (fun a b _ _ hab hba => absurd hab (lt_asymm hba)) h h'

theorem sortDedup_eq_iff {l l' : List α} : sortDedup l = sortDedup l' ↔ ∀ a, a ∈ l ↔ a ∈ l' := by
  constructor
  · intro h a
    rw [← mem_sortDedup, h, mem_sortDedup]
  · intro h
    apply eq_of_strict (sortDedup_strict l) (sortDedup_strict l')
    intro a
    rw [mem_sortDedup, mem_sortDedup, h]

/-- Sorting lists without repeats loses nothing but the order. -/
theorem sort_eq_iff {l l' : List α} (h : l.Nodup) (h' : l'.Nodup) :
    sort l = sort l' ↔ ∀ a, a ∈ l ↔ a ∈ l' := by
  have hsort : ∀ {k : List α}, k.Nodup → sort k = sortDedup k := by
    intro k hk
    rw [sortDedup, dedup_of_nodup ((sort_perm k).nodup_iff.mpr hk)]
  rw [hsort h, hsort h', sortDedup_eq_iff]

end sortedsets
