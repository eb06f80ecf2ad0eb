-- Values grouped by their keys, and keys that several values share. When a
-- shared key is left to one value at most, the values that stay share none.
import PureAnalyzer.SortedMap
import Mathlib.Data.List.Induction
import Mathlib.Data.List.Nodup

namespace grouping

variable {κ ι : Type} [LinearOrder κ]

/-! ## Groups -/

/-- Puts a value behind the others of its key. -/
def push (groups : SortedMap κ (List ι)) (claim : κ × ι) : SortedMap κ (List ι) :=
  groups.insert claim.1 ((groups.get claim.1).getD [] ++ [claim.2])

def group (claims : List (κ × ι)) : SortedMap κ (List ι) := claims.foldl push SortedMap.empty

/-- The values of one key, in their order. -/
def holders (claims : List (κ × ι)) (k : κ) : List ι := (claims.filter (·.1 = k)).map Prod.snd

theorem holders_snoc (claims : List (κ × ι)) (claim : κ × ι) (k : κ) :
    holders (claims ++ [claim]) k =
      if claim.1 = k then holders claims k ++ [claim.2] else holders claims k := by
  unfold holders
  by_cases hk : claim.1 = k
  · simp [List.filter_append, hk]
  · simp [List.filter_append, hk]

theorem getD_group (claims : List (κ × ι)) (k : κ) :
    ((group claims).get k).getD [] = holders claims k := by
  induction claims using List.reverseRecOn with
  | nil => rfl
  | append_singleton claims claim ih =>
    have hstep : group (claims ++ [claim]) = push (group claims) claim := by
      unfold group
      rw [List.foldl_append]
      rfl
    rw [hstep, push, SortedMap.get_insert, holders_snoc]
    by_cases hk : k = claim.1
    · subst hk
      rw [if_pos rfl, if_pos rfl, Option.getD_some]
      rw [← ih]
    · rw [if_neg hk, if_neg (Ne.symm hk), ih]

/-- A key has a group when it has a value. -/
theorem get_group {claims : List (κ × ι)} {k : κ} {i : ι} (h : i ∈ holders claims k) :
    (group claims).get k = some (holders claims k) := by
  have hgroup := getD_group claims k
  cases hget : (group claims).get k with
  | none =>
    rw [hget] at hgroup
    rw [← hgroup] at h
    cases h
  | some values =>
    rw [hget, Option.getD_some] at hgroup
    rw [hgroup]

/-! ## Sole holders -/

/-- A key of several holders goes to one of rank at most, so the keys of those
who stay are all different. -/
theorem keys_nodup {claims : List (κ × ι)} {stays rank : ι → Bool}
    (h : ∀ k, 2 ≤ (holders claims k).length → ∀ i ∈ holders claims k, stays i = true →
      rank i = true ∧ (holders claims k).countP rank = 1) :
    ((claims.filter (stays ·.2)).map Prod.fst).Nodup := by
  rw [List.nodup_iff_count_le_one]
  intro k
  have hcount : ((claims.filter (stays ·.2)).map Prod.fst).count k =
      (holders claims k).countP stays := by
    rw [List.count, List.countP_map, List.countP_filter, holders, List.countP_map,
      List.countP_filter]
    apply List.countP_congr
    intro claim _
    simp [and_comm]
  rw [hcount]
  by_cases hshared : 2 ≤ (holders claims k).length
  · by_cases hany : ∃ i ∈ holders claims k, stays i = true
    · obtain ⟨i, hi, hstays⟩ := hany
      rw [← (h k hshared i hi hstays).2]
      exact List.countP_mono_left fun j hj hs => (h k hshared j hj hs).1
    · have hzero : (holders claims k).countP stays = 0 :=
        List.countP_eq_zero.mpr fun i hi hs => hany ⟨i, hi, hs⟩
      omega
  · have hle := List.countP_le_length (p := stays) (l := holders claims k)
    omega

end grouping
